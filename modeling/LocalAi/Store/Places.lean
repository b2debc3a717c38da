import Mathlib.Data.List.Nodup
import LocalAi.Store.Records

/-!
# The places of long strings

Where the long strings of a value are, and the value when some of them are in place and the
others are digests.

* `longs`: the long strings with their paths.
* `mask`: the value with the long strings that are not kept replaced by their digests.
* `updateAt_mask`: putting one string back keeps one more.
-/

open List

namespace LocalAi.Store.Records

/-! ### Pointers -/

def pointerText (path : List Text) : Text := path.flatMap fun segment => '/' :: escapeSegment segment

theorem escapeSegment_cons (c : Char) (key : Text) : escapeSegment (c :: key) =
      (if c = '~' then ['~', '0'] else if c = '/' then ['~', '1'] else [c]) ++ escapeSegment key :=
  rfl

theorem slash_notMem_escapeSegment (key : Text) : '/' ∉ escapeSegment key := by
  induction key with
  | nil => simp [escapeSegment]
  | cons c key ih =>
    rw [escapeSegment_cons, mem_append, not_or]
    refine ⟨?_, ih⟩
    split
    · decide
    · split
      · decide
      case isFalse hs => simpa using Ne.symm hs

theorem unescapeSegment_of_ne {c : Char} (hc : c ≠ '~') (text : Text) :
    unescapeSegment (c :: text) = c :: unescapeSegment text := by
  rw [unescapeSegment]
  · intro _ h
    exact absurd h.symm (Ne.symm hc)
  · intro _ h
    exact absurd h.symm (Ne.symm hc)

theorem unescapeSegment_escapeSegment (key : Text) : unescapeSegment (escapeSegment key) = key := by
  induction key with
  | nil => rfl
  | cons c key ih =>
    rw [escapeSegment_cons]
    split
    case isTrue ht =>
      rw [ht, cons_append, cons_append, nil_append, unescapeSegment, ih]
    case isFalse ht =>
      split
      case isTrue hs =>
        rw [hs, cons_append, cons_append, nil_append, unescapeSegment, ih]
      case isFalse hs =>
        rw [cons_append, nil_append, unescapeSegment_of_ne ht, ih]

theorem splitAll_of_notMem {c : Char} {text : Text} (h : c ∉ text) : splitAll c text = [text] := by
  induction text with
  | nil => rfl
  | cons d text ih =>
    rw [mem_cons, not_or] at h
    rw [splitAll, ih h.2]
    exact if_neg (Ne.symm h.1)

theorem splitAll_ne_nil (c : Char) (text : Text) : splitAll c text ≠ [] := by
  cases text with
  | nil => simp [splitAll]
  | cons =>
    rw [splitAll]
    split
    · simp
    · split <;> simp

theorem splitAll_append {c : Char} {front : Text} (h : c ∉ front) (text : Text) :
    splitAll c (front ++ c :: text) = front :: splitAll c text := by
  induction front with
  | nil =>
    rw [nil_append, splitAll]
    split
    case h_1 hn => exact absurd hn (splitAll_ne_nil c text)
    case h_2 part parts hp => rw [if_pos rfl, hp]
  | cons d front ih =>
    rw [mem_cons, not_or] at h
    rw [cons_append, splitAll, ih h.2]
    exact if_neg (Ne.symm h.1)

theorem splitAll_pointerText (path : List Text) {front : Text} (h : '/' ∉ front) :
    splitAll '/' (front ++ pointerText path) = front :: path.map escapeSegment := by
  induction path generalizing front with
  | nil =>
    rw [pointerText, flatMap_nil, append_nil]
    exact splitAll_of_notMem h
  | cons segment path ih =>
    have hr := ih (slash_notMem_escapeSegment segment)
    rw [pointerText] at hr ⊢
    rw [flatMap_cons, cons_append, splitAll_append h, hr, map_cons]

theorem segments_pointerText (path : List Text) : segments (pointerText path) = some path := by
  cases path with
  | nil => rfl
  | cons segment path =>
    have hs := @splitAll_pointerText (segment :: path) [] not_mem_nil
    rw [nil_append] at hs
    have hc : pointerText (segment :: path) =
        '/' :: (escapeSegment segment ++ pointerText path) := rfl
    have hp : ((segment :: path).map escapeSegment).map unescapeSegment = segment :: path := by
      rw [map_map]
      exact (map_congr_left fun key _ => unescapeSegment_escapeSegment key).trans (map_id _)
    rw [segments, hs, drop_succ_cons, drop_zero, hp, hc]
    rfl

theorem pointerText_injective {path other : List Text} (h : pointerText path = pointerText other) :
    path = other := by
  have hs := segments_pointerText path
  rw [h, segments_pointerText] at hs
  exact (Option.some.inj hs).symm

/-! ### Indices -/

theorem isDigit_decimal (n : Nat) : ∀ c ∈ decimal n, c.isDigit = true := by
  intro c hc
  exact Nat.isDigit_of_mem_toDigits (by decide) (by decide) hc

theorem escapeSegment_decimal (n : Nat) : escapeSegment (decimal n) = decimal n := by
  have hp : ∀ text : Text, (∀ c ∈ text, c.isDigit = true) → escapeSegment text = text := by
    intro text hdi
    induction text with
    | nil => rfl
    | cons c text ih =>
      have hc := hdi c (mem_cons_self ..)
      have ht : c ≠ '~' := by
        rintro rfl
        exact absurd hc (by decide)
      have hs : c ≠ '/' := by
        rintro rfl
        exact absurd hc (by decide)
      rw [escapeSegment_cons, if_neg ht, if_neg hs, ih fun d hd => hdi d (mem_cons_of_mem _ hd)]
      rfl
  exact hp _ (isDigit_decimal n)

theorem head_decimal {n : Nat} (h : (decimal n).head? = some '0') : n = 0 := by
  induction n using Nat.strongRecOn with
  | ind n ih =>
    rw [decimal, Nat.toDigits_eq_if (by decide)] at h
    split at h
    case isTrue hlt =>
      have hd : ∀ d < 10, [Nat.digitChar d].head? = some '0' → d = 0 := by decide
      exact hd n hlt h
    case isFalse hge =>
      have hq : (decimal (n / 10)).head? = some '0' := by
        rw [decimal]
        rwa [head?_append_of_ne_nil _ Nat.toDigits_ne_nil] at h
      have := ih (n / 10) (by omega) hq
      omega

theorem parseIndex_decimal (n : Nat) : parseIndex (decimal n) = some n := by
  have hemp : (decimal n).isEmpty = false := by
    rw [isEmpty_eq_false_iff]
    exact Nat.toDigits_ne_nil
  have hd : (decimal n).all Char.isDigit = true := all_eq_true.mpr (isDigit_decimal n)
  have hz : ((decimal n).head? == some '0' && (decimal n).length != 1) = false := by
    by_cases hh : (decimal n).head? = some '0'
    · rw [head_decimal hh]
      rfl
    · simp [hh]
  have hv : (decimal n).foldl (fun n c => 10 * n + (c.toNat - '0'.toNat)) 0 = n :=
    Nat.ofDigitChars_ten_toDigits
  rw [parseIndex, hemp, hd, hz, hv]
  rfl

theorem decimal_injective {m n : Nat} (h : decimal m = decimal n) : m = n := by
  have hi := parseIndex_decimal m
  rw [h, parseIndex_decimal] at hi
  exact (Option.some.inj hi).symm

/-! ### Long strings -/

mutual

def longs : Json → List (List Text × Text)
  | .string text => if blobMinLen ≤ utf8Len text then [([], text)] else []
  | .array items => longItems items 0
  | .object members => longMembers members
  | _ => []

def longItems : List Json → Nat → List (List Text × Text)
  | [], _ => []
  | item :: items, index =>
    (longs item).map (fun place => (decimal index :: place.1, place.2)) ++
      longItems items (index + 1)

def longMembers : List (Text × Json) → List (List Text × Text)
  | [] => []
  | (key, value) :: members =>
    (longs value).map (fun place => (key :: place.1, place.2)) ++ longMembers members

end

mutual

def Distinct : Json → Prop
  | .array items => DistinctItems items
  | .object members => (members.map Prod.fst).Nodup ∧ DistinctMembers members
  | _ => True

def DistinctItems : List Json → Prop
  | [] => True
  | item :: items => Distinct item ∧ DistinctItems items

def DistinctMembers : List (Text × Json) → Prop
  | [] => True
  | (_, value) :: members => Distinct value ∧ DistinctMembers members

end

section Mask

variable (sha256 : Text → Fin 32 → Fin 256)

mutual

def mask : Json → (List Text → Bool) → Json
  | .string text, kept =>
    if blobMinLen ≤ utf8Len text then
      if kept [] then .string text else .string (hexDigest sha256 text)
    else .string text
  | .array items, kept => .array (maskItems items 0 kept)
  | .object members, kept => .object (maskMembers members kept)
  | value, _ => value

def maskItems : List Json → Nat → (List Text → Bool) → List Json
  | [], _, _ => []
  | item :: items, index, kept =>
    mask item (fun path => kept (decimal index :: path)) :: maskItems items (index + 1) kept

def maskMembers : List (Text × Json) → (List Text → Bool) → List (Text × Json)
  | [], _ => []
  | (key, value) :: members, kept =>
    (key, mask value fun path => kept (key :: path)) :: maskMembers members kept

end

/-- The long strings at `pointer` and below are moved out one by one. -/
def Moved.moveAll (moved : Moved) (pointer : Text) (places : List (List Text × Text)) : Moved :=
  places.foldl (fun moved place => moved.move sha256 (pointer ++ pointerText place.1) place.2) moved

theorem Moved.moveAll_append (moved : Moved) (pointer : Text) (places more) :
    moved.moveAll sha256 pointer (places ++ more) =
      (moved.moveAll sha256 pointer places).moveAll sha256 pointer more := foldl_append ..

theorem Moved.moveAll_map (moved : Moved) (pointer segment : Text)
    (places : List (List Text × Text)) :
    moved.moveAll sha256 pointer (places.map fun place => (segment :: place.1, place.2)) =
      moved.moveAll sha256 (pointer ++ '/' :: escapeSegment segment) places := by
  rw [Moved.moveAll, foldl_map, Moved.moveAll]
  congr
  funext moved place
  rw [append_assoc]
  rfl

mutual

theorem externalize_eq : ∀ (value : Json) (pointer : Text) (moved : Moved),
    externalize sha256 value pointer moved =
      (mask sha256 value fun _ => false, moved.moveAll sha256 pointer (longs value))
  | .null, _, _ => rfl
  | .bool _, _, _ => rfl
  | .number _, _, _ => rfl
  | .string text, pointer, moved => by
    rw [externalize, mask, longs]
    split
    · rw [Moved.moveAll, foldl_cons, foldl_nil, pointerText, flatMap_nil,
        append_nil]
      rfl
    · rfl
  | .array items, pointer, moved => by
    rw [externalize, mask, longs, externalizeItems_eq items]
  | .object members, pointer, moved => by
    rw [externalize, mask, longs, externalizeMembers_eq members]

theorem externalizeItems_eq : ∀ (items : List Json) (index : Nat) (pointer : Text) (moved : Moved),
    externalizeItems sha256 items index pointer moved =
      (maskItems sha256 items index fun _ => false,
        moved.moveAll sha256 pointer (longItems items index))
  | [], _, _, _ => rfl
  | item :: items, index, pointer, moved => by
    rw [externalizeItems, externalize_eq item]
    dsimp only
    rw [externalizeItems_eq items, maskItems, longItems, Moved.moveAll_append, Moved.moveAll_map,
      escapeSegment_decimal]

theorem externalizeMembers_eq : ∀ (members : List (Text × Json)) (pointer : Text) (moved : Moved),
    externalizeMembers sha256 members pointer moved =
      (maskMembers sha256 members fun _ => false,
        moved.moveAll sha256 pointer (longMembers members))
  | [], _, _ => rfl
  | (key, value) :: members, pointer, moved => by
    rw [externalizeMembers, externalize_eq value]
    dsimp only
    rw [externalizeMembers_eq members, maskMembers, longMembers, Moved.moveAll_append,
      Moved.moveAll_map]

end

/-! ### Paths are distinct -/

theorem longMembers_head {members : List (Text × Json)} {path : List Text} {text : Text}
    (h : (path, text) ∈ longMembers members) :
    ∃ key rest, path = key :: rest ∧ key ∈ members.map Prod.fst := by
  induction members with
  | nil => simp [longMembers] at h
  | cons first members ih =>
    obtain ⟨key, value⟩ := first
    rw [longMembers, mem_append] at h
    rcases h with h | h
    · obtain ⟨place, -, heq⟩ := mem_map.mp h
      exact ⟨key, place.1, (congrArg Prod.fst heq).symm, mem_cons_self ..⟩
    · obtain ⟨name, rest, hp, hn⟩ := ih h
      exact ⟨name, rest, hp, mem_cons_of_mem _ hn⟩

theorem longItems_head {items : List Json} {index : Nat} {path : List Text} {text : Text}
    (h : (path, text) ∈ longItems items index) :
    ∃ n rest, path = decimal n :: rest ∧ index ≤ n := by
  induction items generalizing index with
  | nil => simp [longItems] at h
  | cons item items ih =>
    rw [longItems, mem_append] at h
    rcases h with h | h
    · obtain ⟨place, -, heq⟩ := mem_map.mp h
      exact ⟨index, place.1, (congrArg Prod.fst heq).symm, le_rfl⟩
    · obtain ⟨n, rest, hp, hn⟩ := ih h
      exact ⟨n, rest, hp, by omega⟩

theorem nodup_map_cons {places : List (List Text × Text)} (segment : Text)
    (h : (places.map Prod.fst).Nodup) :
    ((places.map fun place => (segment :: place.1, place.2)).map Prod.fst).Nodup := by
  rw [map_map]
  have hc : (places.map Prod.fst).map (segment :: ·) =
      places.map (Prod.fst ∘ fun place => (segment :: place.1, place.2)) := by
    rw [map_map]
    rfl
  rw [← hc]
  exact List.Nodup.map (fun _ _ heq => (cons.inj heq).2) h

mutual

theorem longs_nodup : ∀ value : Json, Distinct value → ((longs value).map Prod.fst).Nodup
  | .null, _ => nodup_nil
  | .bool _, _ => nodup_nil
  | .number _, _ => nodup_nil
  | .string text, _ => by
    rw [longs]
    split
    · exact nodup_singleton _
    · exact nodup_nil
  | .array items, h => by
    rw [longs]
    exact longItems_nodup items 0 (by rwa [Distinct] at h)
  | .object members, h => by
    rw [longs]
    rw [Distinct] at h
    exact longMembers_nodup members h.1 h.2

theorem longItems_nodup : ∀ (items : List Json) (index : Nat), DistinctItems items →
    ((longItems items index).map Prod.fst).Nodup
  | [], _, _ => nodup_nil
  | item :: items, index, h => by
    rw [DistinctItems] at h
    rw [longItems, map_append]
    refine nodup_append'.mpr ⟨nodup_map_cons _ (longs_nodup item h.1),
      longItems_nodup items (index + 1) h.2, ?_⟩
    -- a later item has another index
    intro path hf hl
    obtain ⟨place, hp, rfl⟩ := mem_map.mp hf
    obtain ⟨found, -, rfl⟩ := mem_map.mp hp
    obtain ⟨later, hl, heq⟩ := mem_map.mp hl
    obtain ⟨n, rest, hpa, hn⟩ := @longItems_head _ _ later.1 later.2 hl
    rw [hpa] at heq
    have := decimal_injective (cons.inj heq).1
    omega

theorem longMembers_nodup : ∀ members : List (Text × Json), (members.map Prod.fst).Nodup →
    DistinctMembers members → ((longMembers members).map Prod.fst).Nodup
  | [], _, _ => nodup_nil
  | (key, value) :: members, hk, h => by
    rw [DistinctMembers] at h
    rw [map_cons, nodup_cons] at hk
    rw [longMembers, map_append]
    refine nodup_append'.mpr ⟨nodup_map_cons _ (longs_nodup value h.1),
      longMembers_nodup members hk.2 h.2, ?_⟩
    intro path hf hl
    obtain ⟨place, hp, rfl⟩ := mem_map.mp hf
    obtain ⟨found, -, rfl⟩ := mem_map.mp hp
    obtain ⟨later, hl, heq⟩ := mem_map.mp hl
    obtain ⟨name, rest, hpa, hn⟩ := @longMembers_head _ later.1 later.2 hl
    rw [hpa] at heq
    rw [(cons.inj heq).1] at hn
    exact hk.1 hn

end

/-! ### Keeping strings -/

variable {kept other : List Text → Bool}

theorem maskItems_congr {items : List Json} {index : Nat}
    (h : ∀ n, index ≤ n → ∀ path, kept (decimal n :: path) = other (decimal n :: path)) :
    maskItems sha256 items index kept = maskItems sha256 items index other := by
  induction items generalizing index with
  | nil => rfl
  | cons item items ih =>
    rw [maskItems, maskItems, ih fun n hn => h n (by omega)]
    congr 2
    funext path
    exact h index le_rfl path

theorem maskMembers_congr {members : List (Text × Json)}
    (h : ∀ key ∈ members.map Prod.fst, ∀ path, kept (key :: path) = other (key :: path)) :
    maskMembers sha256 members kept = maskMembers sha256 members other := by
  induction members with
  | nil => rfl
  | cons first members ih =>
    obtain ⟨key, value⟩ := first
    rw [maskMembers, maskMembers, ih fun name hn => h name (mem_cons_of_mem _ hn)]
    congr 3
    funext path
    exact h key (mem_cons_self ..) path

mutual

theorem mask_kept : ∀ (value : Json) (kept : List Text → Bool),
    (∀ place ∈ longs value, kept place.1 = true) → mask sha256 value kept = value
  | .null, _, _ => rfl
  | .bool _, _, _ => rfl
  | .number _, _, _ => rfl
  | .string text, kept, h => by
    rw [mask]
    split
    case isTrue hl =>
      have hk : kept [] = true := h ([], text) (by rw [longs, if_pos hl]; exact mem_singleton.mpr rfl)
      rw [if_pos hk]
    · rfl
  | .array items, kept, h => by rw [mask, maskItems_kept items 0 kept (by rwa [longs] at h)]
  | .object members, kept, h => by rw [mask, maskMembers_kept members kept (by rwa [longs] at h)]

theorem maskItems_kept : ∀ (items : List Json) (index : Nat) (kept : List Text → Bool),
    (∀ place ∈ longItems items index, kept place.1 = true) →
    maskItems sha256 items index kept = items
  | [], _, _, _ => rfl
  | item :: items, index, kept, h => by
    rw [longItems] at h
    rw [maskItems, mask_kept item _ fun place hp => h (decimal index :: place.1, place.2)
        (mem_append_left _ (mem_map.mpr ⟨place, hp, rfl⟩)),
      maskItems_kept items _ _ fun place hp => h place (mem_append_right _ hp)]

theorem maskMembers_kept : ∀ (members : List (Text × Json)) (kept : List Text → Bool),
    (∀ place ∈ longMembers members, kept place.1 = true) →
    maskMembers sha256 members kept = members
  | [], _, _ => rfl
  | (key, value) :: members, kept, h => by
    rw [longMembers] at h
    rw [maskMembers, mask_kept value _ fun place hp => h (key :: place.1, place.2)
        (mem_append_left _ (mem_map.mpr ⟨place, hp, rfl⟩)),
      maskMembers_kept members _ fun place hp => h place (mem_append_right _ hp)]

end

def keep (kept : List Text → Bool) (path : List Text) : List Text → Bool :=
  fun place => kept place || place == path

theorem keep_cons (kept : List Text → Bool) (segment : Text) (path : List Text) :
    (fun place => keep kept (segment :: path) (segment :: place)) =
      keep (fun place => kept (segment :: place)) path := by
  funext place
  simp [keep]

theorem keep_of_ne {kept : List Text → Bool} {segment name : Text} (h : name ≠ segment)
    (path place : List Text) : keep kept (segment :: path) (name :: place) = kept (name :: place) := by
  simp [keep, h]

mutual

theorem updateAt_mask : ∀ (value : Json) (kept : List Text → Bool) (path : List Text) (text : Text),
    Distinct value → (path, text) ∈ longs value → kept path = false →
    updateAt (putBack (hexDigest sha256 text) text) path (mask sha256 value kept) =
      some (mask sha256 value (keep kept path))
  | .null, _, _, _, _, h, _ => by simp [longs] at h
  | .bool _, _, _, _, _, h, _ => by simp [longs] at h
  | .number _, _, _, _, _, h, _ => by simp [longs] at h
  | .string found, kept, path, text, _, h, hk => by
    rw [longs] at h
    split at h
    case isTrue hl =>
      obtain ⟨rfl, rfl⟩ := Prod.mk.inj (mem_singleton.mp h)
      rw [mask, mask, if_pos hl, if_pos hl, hk]
      simp [updateAt, putBack, keep]
    case isFalse => cases h
  | .array items, kept, path, text, hd, h, hk => by
    rw [longs] at h
    rw [Distinct] at hd
    obtain ⟨n, rest, rfl, hn⟩ := longItems_head h
    rw [mask, mask, updateAt, parseIndex_decimal, Option.bind_some]
    have hi := updateItem_maskItems items 0 kept n rest text hd h hk
    rw [Nat.sub_zero] at hi
    rw [hi]
    rfl
  | .object members, kept, path, text, hd, h, hk => by
    rw [longs] at h
    rw [Distinct] at hd
    obtain ⟨key, rest, rfl, hkey⟩ := longMembers_head h
    rw [mask, mask, updateAt, updateMember_maskMembers members kept key rest text hd.1 hd.2 h hk]
    rfl

theorem updateItem_maskItems : ∀ (items : List Json) (index : Nat) (kept : List Text → Bool)
    (n : Nat) (rest : List Text) (text : Text), DistinctItems items →
    (decimal n :: rest, text) ∈ longItems items index → kept (decimal n :: rest) = false →
    updateItem (updateAt (putBack (hexDigest sha256 text) text) rest) (n - index)
        (maskItems sha256 items index kept) =
      some (maskItems sha256 items index (keep kept (decimal n :: rest)))
  | [], _, _, _, _, _, _, h, _ => by simp [longItems] at h
  | item :: items, index, kept, n, rest, text, hd, h, hke => by
    rw [DistinctItems] at hd
    rw [longItems, mem_append] at h
    rw [maskItems, maskItems]
    rcases h with h | h
    · obtain ⟨place, hpl, heq⟩ := mem_map.mp h
      obtain ⟨hp, rfl⟩ := Prod.mk.inj heq
      obtain ⟨hidx, rfl⟩ := cons.inj hp
      obtain rfl := decimal_injective hidx
      have hf := updateAt_mask item (fun path => kept (decimal index :: path)) place.1 place.2
        hd.1 hpl hke
      rw [Nat.sub_self, updateItem, hf, keep_cons]
      have hl : maskItems sha256 items (index + 1) kept =
          maskItems sha256 items (index + 1) (keep kept (decimal index :: place.1)) := by
        refine maskItems_congr sha256 fun n hn path => (keep_of_ne ?_ _ _).symm
        intro hs
        have := decimal_injective hs
        omega
      rw [← hl]
      rfl
    · obtain ⟨m, later, hp, hm⟩ := longItems_head h
      obtain rfl := decimal_injective (cons.inj hp).1
      obtain ⟨k, hk⟩ : ∃ k, n - index = k + 1 := ⟨n - index - 1, by omega⟩
      have hr := updateItem_maskItems items (index + 1) kept n rest text hd.2 h hke
      rw [show n - (index + 1) = k by omega] at hr
      have hi : (fun path => keep kept (decimal n :: rest) (decimal index :: path)) =
          fun path => kept (decimal index :: path) := by
        funext path
        refine keep_of_ne ?_ _ _
        intro hs
        have := decimal_injective hs
        omega
      rw [hk, updateItem, hr, hi]
      rfl

theorem updateMember_maskMembers : ∀ (members : List (Text × Json)) (kept : List Text → Bool)
    (key : Text) (rest : List Text) (text : Text), (members.map Prod.fst).Nodup →
    DistinctMembers members → (key :: rest, text) ∈ longMembers members →
    kept (key :: rest) = false →
    updateMember key (updateAt (putBack (hexDigest sha256 text) text) rest)
        (maskMembers sha256 members kept) =
      some (maskMembers sha256 members (keep kept (key :: rest)))
  | [], _, _, _, _, _, _, h, _ => by simp [longMembers] at h
  | (name, value) :: members, kept, key, rest, text, hk, hd, h, hke => by
    rw [DistinctMembers] at hd
    rw [map_cons, nodup_cons] at hk
    rw [longMembers, mem_append] at h
    rw [maskMembers, maskMembers]
    rcases h with h | h
    · obtain ⟨place, hpl, heq⟩ := mem_map.mp h
      obtain ⟨hp, rfl⟩ := Prod.mk.inj heq
      obtain ⟨rfl, rfl⟩ := cons.inj hp
      have hfst := updateAt_mask value (fun path => kept (name :: path)) place.1 place.2
        hd.1 hpl hke
      rw [updateMember, if_pos rfl, hfst, keep_cons]
      have hl : maskMembers sha256 members kept =
          maskMembers sha256 members (keep kept (name :: place.1)) := by
        refine maskMembers_congr sha256 fun other ho path => (keep_of_ne ?_ _ _).symm
        rintro rfl
        exact hk.1 ho
      rw [← hl]
      rfl
    · obtain ⟨found, later, hp, hf⟩ := longMembers_head h
      obtain ⟨rfl, rfl⟩ := cons.inj hp
      have hne : name ≠ key := by
        rintro rfl
        exact hk.1 hf
      have hr := updateMember_maskMembers members kept key rest text hk.2 hd.2 h hke
      have hv : (fun path => keep kept (key :: rest) (name :: path)) =
          fun path => kept (name :: path) := by
        funext path
        exact keep_of_ne hne _ _
      rw [updateMember, if_neg hne, hr, hv]
      rfl

end

end Mask

end LocalAi.Store.Records
