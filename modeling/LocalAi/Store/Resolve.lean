import Mathlib.Data.List.OfFn
import LocalAi.Store.Places

/-!
# Putting long strings back

* `externalize_references`: the references are the places of the long strings.
* `fillAll_mask`: the blobs' contents, put back in any order, unmask the record.
-/

open List

namespace LocalAi.Store.Records

section Digest

variable (sha256 : Text → Fin 32 → Fin 256)

/-! ### Digests -/

theorem utf8Len_hexByte : ∀ byte : Fin 256, utf8Len (hexByte byte) = 2 := by
  decide +kernel

theorem hexDigit_injective : ∀ m < 16, ∀ n < 16, hexDigit m = hexDigit n → m = n := by
  decide

theorem hexByte_injective {byte other : Fin 256} (h : hexByte byte = hexByte other) :
    byte = other := by
  obtain ⟨hh, hr⟩ := cons.inj h
  obtain ⟨hl, -⟩ := cons.inj hr
  have hq := hexDigit_injective _ (by omega) _ (by omega) hh
  have hrem := hexDigit_injective _ (by omega) _ (by omega) hl
  exact Fin.ext (by omega)

theorem hexBytes_injective {bytes others : List (Fin 256)}
    (h : bytes.flatMap hexByte = others.flatMap hexByte) : bytes = others := by
  induction bytes generalizing others with
  | nil =>
    cases others with
    | nil => rfl
    | cons => cases h
  | cons byte bytes ih =>
    cases others with
    | nil => cases h
    | cons =>
      rw [flatMap_cons, flatMap_cons] at h
      obtain ⟨hf, hr⟩ := append_inj h rfl
      rw [hexByte_injective hf, ih hr]

theorem hexDigest_eq_iff {text other : Text} :
    hexDigest sha256 text = hexDigest sha256 other ↔ sha256 text = sha256 other := by
  constructor
  · intro h
    exact ofFn_injective (hexBytes_injective h)
  · intro h
    rw [hexDigest, hexDigest, h]

theorem utf8Len_hexDigest (text : Text) : utf8Len (hexDigest sha256 text) = 64 := by
  have hb : ∀ bytes : List (Fin 256), utf8Len (bytes.flatMap hexByte) = 2 * bytes.length := by
    intro bytes
    induction bytes with
    | nil => rfl
    | cons byte bytes ih =>
      rw [flatMap_cons, utf8Len_append, utf8Len_hexByte, ih, length_cons]
      omega
  rw [hexDigest, hb, length_ofFn]

theorem validDigest_hexDigest (text : Text) : validDigest (hexDigest sha256 text) = true := by
  have hb : ∀ byte : Fin 256, ((hexByte byte).all fun c =>
      c.isDigit || (decide ('a' ≤ c) && decide (c ≤ 'f'))) = true := by
    decide +kernel
  rw [validDigest, utf8Len_hexDigest, beq_self_eq_true, Bool.true_and, all_eq_true]
  intro c hc
  obtain ⟨byte, -, hm⟩ := mem_flatMap.mp hc
  exact all_eq_true.mp (hb byte) c hm

/-! ### What is moved out -/

variable {key digest pointer content : Text} {members : List (Text × Json)}

variable {value : Json}

theorem insertMember_of_notMem
    (h : key ∉ members.map Prod.fst) : insertMember key value members = members ++ [(key, value)] := by
  have ha : (members.any fun member => member.1 == key) = false := by
    rw [any_eq_false]
    intro member hm hk
    exact h (mem_map.mpr ⟨member, hm, beq_iff_eq.mp hk⟩)
  rw [insertMember, ha]
  rfl

def reference (place : List Text × Text) : Text × Json :=
  (pointerText place.1, .string (hexDigest sha256 place.2))

variable {places : List (List Text × Text)}

theorem moveAll_references {moved : Moved}
    (h : (moved.references.map Prod.fst ++ places.map fun place => pointerText place.1).Nodup) :
    (moved.moveAll sha256 [] places).references =
      moved.references ++ places.map (reference sha256) := by
  induction places generalizing moved with
  | nil => rw [map_nil, append_nil]; rfl
  | cons place places ih =>
    have hf : pointerText place.1 ∉ moved.references.map Prod.fst := by
      intro hmem
      rw [map_cons] at h
      exact (disjoint_of_nodup_append h) hmem (mem_cons_self ..)
    have hm : (moved.move sha256 (pointerText place.1) place.2).references =
        moved.references ++ [reference sha256 place] := insertMember_of_notMem hf
    have hs : moved.moveAll sha256 [] (place :: places) =
        (moved.move sha256 (pointerText place.1) place.2).moveAll sha256 [] places := rfl
    rw [hs, ih, hm, append_assoc]
    · rfl
    · rw [hm, map_append, append_assoc]
      exact h

theorem pointers_nodup (h : Distinct value) :
    ((longs value).map fun place => pointerText place.1).Nodup := by
  have hp := List.Nodup.map (fun _ _ heq => pointerText_injective heq) (longs_nodup value h)
  rwa [map_map] at hp

theorem externalize_references (h : Distinct value) :
    (externalize sha256 value [] .none).2.references = (longs value).map (reference sha256) := by
  rw [externalize_eq]
  exact @moveAll_references sha256 _ Moved.none (pointers_nodup h)

theorem moveAll_blobs {moved : Moved} {blob : Text × Text}
    (h : blob ∈ (moved.moveAll sha256 [] places).blobs) :
    blob ∈ moved.blobs ∨ ∃ place ∈ places, blob = (hexDigest sha256 place.2, place.2) := by
  induction places generalizing moved with
  | nil => exact .inl h
  | cons place places ih =>
    rcases ih h with hf | ⟨later, hl, heq⟩
    · have hi : blob ∈ orInsert (hexDigest sha256 place.2) place.2 moved.blobs := hf
      rw [orInsert] at hi
      split at hi
      · exact .inl hi
      · rcases mem_append.mp hi with hold | hn
        · exact .inl hold
        · exact .inr ⟨place, mem_cons_self .., mem_singleton.mp hn⟩
    · exact .inr ⟨later, mem_cons_of_mem _ hl, heq⟩

theorem moveAll_names {moved : Moved}
    (h : digest ∈ moved.blobs.map Prod.fst ∨ ∃ place ∈ places, digest = hexDigest sha256 place.2) :
    digest ∈ (moved.moveAll sha256 [] places).blobs.map Prod.fst := by
  induction places generalizing moved with
  | nil =>
    rcases h with h | ⟨place, hp, -⟩
    · exact h
    · cases hp
  | cons place places ih =>
    have hk : ∀ name, name ∈ moved.blobs.map Prod.fst ∨ name = hexDigest sha256 place.2 →
        name ∈ (orInsert (hexDigest sha256 place.2) place.2 moved.blobs).map Prod.fst := by
      intro name hn
      rw [orInsert]
      split
      case isTrue ha =>
        rcases hn with hn | rfl
        · exact hn
        · obtain ⟨blob, hb, hkey⟩ := any_eq_true.mp ha
          exact mem_map.mpr ⟨blob, hb, beq_iff_eq.mp hkey⟩
      case isFalse =>
        rw [map_append, mem_append]
        rcases hn with hn | rfl
        · exact .inl hn
        · exact .inr (mem_singleton.mpr rfl)
    refine @ih (moved.move sha256 (pointerText place.1) place.2) ?_
    rcases h with h | ⟨found, hf, rfl⟩
    · exact .inl (hk digest (.inl h))
    · rcases mem_cons.mp hf with rfl | hf
      · exact .inl (hk _ (.inr rfl))
      · exact .inr ⟨found, hf, rfl⟩

/-! ### Putting back -/

def pairs (places : List (Text × List Text)) : List (Text × Text) :=
  places.flatMap fun place => place.2.map fun pointer => (place.1, pointer)

theorem pairs_cons (digest : Text) (pointers : List Text) (places : List (Text × List Text)) :
    pairs ((digest, pointers) :: places) =
      pointers.map (fun pointer => (digest, pointer)) ++ pairs places := rfl

variable {places : List (Text × List Text)}

theorem pairs_addPlace (h : (places.map Prod.fst).Nodup) :
    (pairs (addPlace digest pointer places)).Perm ((digest, pointer) :: pairs places) := by
  have hadd : ∀ places : List (Text × List Text), (places.map Prod.fst).Nodup →
      digest ∈ places.map Prod.fst →
      (pairs (places.map fun place =>
        if place.1 == digest then (place.1, place.2 ++ [pointer]) else place)).Perm
        ((digest, pointer) :: pairs places) := by
    intro places hnd hm
    induction places with
    | nil => cases hm
    | cons place places ih =>
      obtain ⟨name, pointers⟩ := place
      rw [map_cons, nodup_cons] at hnd
      rw [map_cons]
      by_cases hn : name = digest
      · subst hn
        have hr : (places.map fun place =>
            if place.1 == name then (place.1, place.2 ++ [pointer]) else place) = places := by
          refine (map_congr_left fun place hp => if_neg ?_).trans (map_id _)
          intro hs
          exact hnd.1 (mem_map.mpr ⟨place, hp, beq_iff_eq.mp hs⟩)
        rw [if_pos (beq_self_eq_true name), hr, pairs_cons, pairs_cons, map_append, append_assoc]
        exact perm_middle
      · have hb : ¬ (name == digest) = true := fun hs => hn (beq_iff_eq.mp hs)
        rw [if_neg hb, pairs_cons, pairs_cons]
        have hl := ih hnd.2 ((mem_cons.mp hm).resolve_left (Ne.symm hn))
        exact (hl.append_left _).trans perm_middle
  rw [addPlace]
  split
  case isTrue hany =>
    obtain ⟨place, hp, hk⟩ := any_eq_true.mp hany
    exact hadd places h (mem_map.mpr ⟨place, hp, beq_iff_eq.mp hk⟩)
  case isFalse =>
    rw [pairs, flatMap_append]
    exact perm_append_comm

theorem addPlace_names (digest pointer : Text) (places : List (Text × List Text)) :
    (addPlace digest pointer places).map Prod.fst =
      if digest ∈ places.map Prod.fst then places.map Prod.fst
      else places.map Prod.fst ++ [digest] := by
  have ha : (places.any fun place => place.1 == digest) = true ↔ digest ∈ places.map Prod.fst := by
    rw [any_eq_true, mem_map]
    simp only [beq_iff_eq]
  rw [addPlace]
  by_cases h : digest ∈ places.map Prod.fst
  · rw [if_pos (ha.mpr h), if_pos h, map_map]
    refine map_congr_left fun place _ => ?_
    rw [Function.comp_apply]
    split <;> rfl
  · rw [if_neg (fun hy => h (ha.mp hy)), if_neg h, map_append]
    rfl

theorem addPlace_nodup (h : (places.map Prod.fst).Nodup) :
    ((addPlace digest pointer places).map Prod.fst).Nodup := by
  rw [addPlace_names]
  split
  · exact h
  case isFalse hn =>
    rw [← concat_eq_append]
    exact h.concat hn

theorem addPlace_filled (h : ∀ place ∈ places, place.2 ≠ []) :
    ∀ place ∈ addPlace digest pointer places, place.2 ≠ [] := by
  intro place hp
  rw [addPlace] at hp
  split at hp
  · obtain ⟨old, hold, rfl⟩ := mem_map.mp hp
    split
    · simp
    · exact h old hold
  · rcases mem_append.mp hp with hold | hn
    · exact h place hold
    · rw [mem_singleton.mp hn]
      simp

theorem placesOf_ok (id : Text) {listed : List (Text × Text)} {places : List (Text × List Text)}
    (hv : ∀ entry ∈ listed, validDigest entry.2 = true)
    (hnd : (places.map Prod.fst).Nodup) (hf : ∀ place ∈ places, place.2 ≠ []) :
    ∃ found, placesOf id (listed.map fun entry => (entry.1, .string entry.2)) places = .ok found ∧
      (pairs found).Perm (pairs places ++ listed.map fun entry => (entry.2, entry.1)) ∧
      ∀ place ∈ found, place.2 ≠ [] := by
  induction listed generalizing places with
  | nil => exact ⟨places, rfl, by simp, hf⟩
  | cons entry listed ih =>
    obtain ⟨found, hfo, hp, ha⟩ := @ih (addPlace entry.2 entry.1 places)
      (fun later hl => hv later (mem_cons_of_mem _ hl)) (addPlace_nodup hnd)
      (addPlace_filled hf)
    refine ⟨found, ?_, ?_, ha⟩
    · rw [map_cons, placesOf, if_pos (hv entry (mem_cons_self ..))]
      exact hfo
    · rw [map_cons]
      exact hp.trans (((pairs_addPlace hnd).append_right _).trans perm_middle.symm)

/-- The strings whose pointers are listed are kept. -/
def keptIn (done : List Text) (path : List Text) : Bool := decide (pointerText path ∈ done)

theorem keep_keptIn (done : List Text) (path : List Text) :
    keep (keptIn done) path = keptIn (done ++ [pointerText path]) := by
  funext place
  rw [keep, keptIn, keptIn, Bool.eq_iff_iff, Bool.or_eq_true, decide_eq_true_iff,
    decide_eq_true_iff, beq_iff_eq, mem_append, mem_singleton]
  exact or_congr_right ⟨fun h => h ▸ rfl, pointerText_injective⟩

section Fill

variable {value : Json}

theorem fillPlaces_mask (id : Text) {pointers done : List Text} (hd : Distinct value)
    (hp : ∀ pointer ∈ pointers, ∃ path, pointer = pointerText path ∧
      (path, content) ∈ longs value) (hnd : (done ++ pointers).Nodup) :
    fillPlaces id (hexDigest sha256 content) content pointers (mask sha256 value (keptIn done)) =
      .ok (mask sha256 value (keptIn (done ++ pointers))) := by
  induction pointers generalizing done with
  | nil => rw [append_nil]; rfl
  | cons pointer pointers ih =>
    obtain ⟨path, rfl, hpa⟩ := hp pointer (mem_cons_self ..)
    have hk : keptIn done path = false := by
      rw [keptIn, decide_eq_false_iff_not]
      intro hdo
      exact (disjoint_of_nodup_append hnd) hdo (mem_cons_self ..)
    have hput : pointerMut (putBack (hexDigest sha256 content) content) (pointerText path)
        (mask sha256 value (keptIn done)) =
        some (mask sha256 value (keptIn (done ++ [pointerText path]))) := by
      rw [pointerMut, segments_pointerText, Option.bind_some,
        updateAt_mask sha256 value _ path content hd hpa hk, keep_keptIn]
    have hs : done ++ pointerText path :: pointers = done ++ [pointerText path] ++ pointers := by
      rw [append_assoc]
      rfl
    rw [hs] at hnd ⊢
    rw [fillPlaces, hput]
    exact ih (fun later hl => hp later (mem_cons_of_mem _ hl)) hnd

theorem fillAll_mask (id : Text) {links : Text → Option Text} {places : List (Text × List Text)}
    {done : List Text} (hd : Distinct value)
    (hl : ∀ place ∈ longs value, links (hexDigest sha256 place.2) = some place.2)
    (hpl : ∀ pair ∈ pairs places, ∃ place ∈ longs value,
      pair = (hexDigest sha256 place.2, pointerText place.1)) (hf : ∀ place ∈ places, place.2 ≠ [])
    (hnd : (done ++ (pairs places).map Prod.snd).Nodup) :
    fillAll id links places (mask sha256 value (keptIn done)) =
      .ok (mask sha256 value (keptIn (done ++ (pairs places).map Prod.snd))) := by
  induction places generalizing done with
  | nil => simp [fillAll, pairs]
  | cons first places ih =>
    obtain ⟨digest, pointers⟩ := first
    have hpo : (pointers.map fun pointer => (digest, pointer)).map Prod.snd = pointers := by
      rw [map_map]
      exact map_id _
    rw [pairs_cons, map_append, hpo] at hnd ⊢
    have hg : ∀ pointer ∈ pointers, ∃ place ∈ longs value,
        digest = hexDigest sha256 place.2 ∧ pointer = pointerText place.1 := by
      intro pointer hptr
      obtain ⟨place, hp, heq⟩ := hpl (digest, pointer)
        (mem_append_left _ (mem_map.mpr ⟨pointer, hptr, rfl⟩))
      exact ⟨place, hp, (Prod.mk.inj heq).1, (Prod.mk.inj heq).2⟩
    -- a place of the group has the digest's content
    obtain ⟨witness, hw⟩ := exists_mem_of_ne_nil _ (hf _ (mem_cons_self ..))
    obtain ⟨place, hp, rfl, -⟩ := hg witness hw
    have hs : ∀ pointer ∈ pointers, ∃ path, pointer = pointerText path ∧
        (path, place.2) ∈ longs value := by
      intro pointer hptr
      obtain ⟨other, ho, hdig, rfl⟩ := hg pointer hptr
      have hc := hl place hp
      rw [hdig, hl other ho] at hc
      rw [← Option.some.inj hc]
      exact ⟨other.1, rfl, ho⟩
    rw [← append_assoc] at hnd ⊢
    have hfi := fillPlaces_mask sha256 id hd hs hnd.of_append_left
    rw [fillAll, hl place hp]
    dsimp only
    rw [hfi]
    exact ih (fun pair hpa => hpl pair (mem_append_right _ hpa))
      (fun later hla => hf later (mem_cons_of_mem _ hla)) hnd

end Fill

/-! ### The inverse -/

theorem map_fst_maskMembers (members : List (Text × Json)) (kept : List Text → Bool) :
    (maskMembers sha256 members kept).map Prod.fst = members.map Prod.fst := by
  induction members with
  | nil => rfl
  | cons first members ih => rw [maskMembers, map_cons, map_cons, ih]

theorem lookup_append_of_notMem (h : key ∉ members.map Prod.fst) (value : Json) :
    lookup key (members ++ [(key, value)]) = some value := by
  have hn : members.find? (fun member => member.1 == key) = none := by
    rw [find?_eq_none]
    intro member hm hk
    exact h (mem_map.mpr ⟨member, hm, beq_iff_eq.mp hk⟩)
  rw [lookup, find?_append, hn]
  simp

theorem swapRemove_append (key : Text) (members : List (Text × Json)) (value : Json) :
    swapRemove key (members ++ [(key, value)]) = members := by
  simp [swapRemove]

theorem perm_pairs {others : List (Text × List Text)} (h : places.Perm others) :
    (pairs places).Perm (pairs others) := h.flatMap_right _

/-- `resolve` undoes `externalize`, when the record's links have the strings. -/
theorem resolve_externalize (order : Order) (id : Text) {links : Text → Option Text}
    (hd : Distinct (.object members)) (hb : "blobs".toList ∉ members.map Prod.fst)
    (hl : ∀ place ∈ longs (.object members), links (hexDigest sha256 place.2) = some place.2) :
    resolve order links id
        (setMember "blobs".toList
          (.object (externalize sha256 (.object members) [] .none).2.references)
          (externalize sha256 (.object members) [] .none).1) =
      .ok (.object members) := by
  have hr : setMember "blobs".toList
      (.object (externalize sha256 (.object members) [] .none).2.references)
      (externalize sha256 (.object members) [] .none).1 =
      .object (maskMembers sha256 members (fun _ => false) ++
        [("blobs".toList, .object ((longs (.object members)).map (reference sha256)))]) := by
    rw [externalize_references sha256 hd, externalize_eq, mask, setMember, insertMember_of_notMem]
    rw [map_fst_maskMembers]
    exact hb
  have hli : (longs (.object members)).map (reference sha256) =
      ((longs (.object members)).map fun place =>
        (pointerText place.1, hexDigest sha256 place.2)).map fun entry =>
          (entry.1, .string entry.2) := by
    rw [map_map]
    rfl
  obtain ⟨found, hfo, hpe, hf⟩ := @placesOf_ok id
    ((longs (.object members)).map fun place => (pointerText place.1, hexDigest sha256 place.2)) []
    (by
      intro entry hent
      obtain ⟨place, -, rfl⟩ := mem_map.mp hent
      exact validDigest_hexDigest sha256 place.2)
    nodup_nil (by simp)
  have hn : pairs [] = [] := rfl
  rw [hn, nil_append, map_map] at hpe
  have hpairs : (pairs (order.places found)).Perm ((longs (.object members)).map
      fun place => (hexDigest sha256 place.2, pointerText place.1)) :=
    (perm_pairs (order.places_perm found)).trans hpe
  have hpo : ((pairs (order.places found)).map Prod.snd).Perm
      ((longs (.object members)).map fun place => pointerText place.1) := by
    have hm := hpairs.map Prod.snd
    rwa [map_map] at hm
  have hs : mask sha256 (.object members) (keptIn []) =
      .object (maskMembers sha256 members fun _ => false) := rfl
  have hfi := @fillAll_mask sha256 (.object members) id links (order.places found) [] hd
    hl
    (by
      intro pair hpair
      obtain ⟨place, hp, rfl⟩ := mem_map.mp (hpairs.mem_iff.mp hpair)
      exact ⟨place, hp, rfl⟩)
    (fun place hp => hf place ((order.places_perm found).mem_iff.mp hp))
    (by
      rw [nil_append]
      exact hpo.nodup_iff.mpr (pointers_nodup hd))
  have ha : mask sha256 (.object members) (keptIn ([] ++ (pairs (order.places found)).map Prod.snd)) =
      .object members := by
    refine mask_kept sha256 _ _ fun place hp => ?_
    rw [keptIn, decide_eq_true_iff, nil_append]
    exact hpo.mem_iff.mpr (mem_map.mpr ⟨place, hp, rfl⟩)
  have hk : "blobs".toList ∉ (maskMembers sha256 members fun _ => false).map Prod.fst := by
    rw [map_fst_maskMembers]
    exact hb
  rw [hr, resolve, lookup_append_of_notMem hk]
  dsimp only
  rw [hli, hfo]
  dsimp only
  rw [swapRemove_append, ← hs, hfi, ha]

/-! ### What is left -/

mutual

def strings : Json → List Text
  | .string text => [text]
  | .array items => stringItems items
  | .object members => stringMembers members
  | _ => []

def stringItems : List Json → List Text
  | [] => []
  | item :: items => strings item ++ stringItems items

def stringMembers : List (Text × Json) → List Text
  | [] => []
  | (_, value) :: members => strings value ++ stringMembers members

end

mutual

theorem strings_mask : ∀ value : Json, ∀ text ∈ strings (mask sha256 value fun _ => false),
    utf8Len text < blobMinLen
  | .null, _, h => by simp [mask, strings] at h
  | .bool _, _, h => by simp [mask, strings] at h
  | .number _, _, h => by simp [mask, strings] at h
  | .string found, text, h => by
    rw [mask] at h
    split at h
    case isTrue hl =>
      rw [if_neg (by decide), strings] at h
      rw [mem_singleton.mp h, utf8Len_hexDigest]
      decide
    case isFalse hs =>
      rw [strings] at h
      rw [mem_singleton.mp h]
      exact Nat.not_le.mp hs
  | .array items, text, h => by
    rw [mask, strings] at h
    exact stringItems_mask items 0 text h
  | .object members, text, h => by
    rw [mask, strings] at h
    exact stringMembers_mask members text h

theorem stringItems_mask : ∀ (items : List Json) (index : Nat),
    ∀ text ∈ stringItems (maskItems sha256 items index fun _ => false), utf8Len text < blobMinLen
  | [], _, _, h => by simp [maskItems, stringItems] at h
  | item :: items, index, text, h => by
    rw [maskItems, stringItems, mem_append] at h
    rcases h with h | h
    · exact strings_mask item text h
    · exact stringItems_mask items (index + 1) text h

theorem stringMembers_mask : ∀ members : List (Text × Json),
    ∀ text ∈ stringMembers (maskMembers sha256 members fun _ => false), utf8Len text < blobMinLen
  | [], _, h => by simp [maskMembers, stringMembers] at h
  | (key, value) :: members, text, h => by
    rw [maskMembers, stringMembers, mem_append] at h
    rcases h with h | h
    · exact strings_mask value text h
    · exact stringMembers_mask members text h

end

theorem updateMember_eq_some {f : Json → Option Json} {members after}
    (h : updateMember key f members = some after) :
    ∃ value changed, lookup key members = some value ∧ f value = some changed := by
  induction members generalizing after with
  | nil => cases h
  | cons first members ih =>
    obtain ⟨name, value⟩ := first
    rw [updateMember] at h
    split at h
    case isTrue hn =>
      obtain ⟨changed, hc, -⟩ := Option.map_eq_some_iff.mp h
      exact ⟨value, changed, by simp [lookup, hn], hc⟩
    case isFalse hn =>
      obtain ⟨rest, hr, -⟩ := Option.map_eq_some_iff.mp h
      obtain ⟨found, changed, hf, hc⟩ := ih hr
      refine ⟨found, changed, ?_, hc⟩
      rw [lookup] at hf ⊢
      rw [find?_cons_of_neg (by simpa using hn)]
      exact hf

theorem updateItem_eq_some {f : Json → Option Json} {index : Nat} {items after : List Json}
    (h : updateItem f index items = some after) :
    ∃ value changed, items[index]? = some value ∧ f value = some changed := by
  induction items generalizing index after with
  | nil => cases index <;> cases h
  | cons item items ih =>
    cases index with
    | zero =>
      obtain ⟨changed, hc, -⟩ := Option.map_eq_some_iff.mp h
      exact ⟨item, changed, rfl, hc⟩
    | succ =>
      obtain ⟨rest, hr, -⟩ := Option.map_eq_some_iff.mp h
      exact ih hr

theorem walk_of_putBack (path : List Text) : ∀ value after : Json,
    updateAt (putBack digest content) path value = some after →
    (path.map escapeSegment).foldl (fun target segment => target.bind fun target =>
      match target with
      | .object members => lookup (unescapeSegment segment) members
      | .array items => (parseIndex (unescapeSegment segment)).bind fun index => items[index]?
      | _ => none) (some value) = some (.string digest) := by
  induction path with
  | nil =>
    intro value after h
    cases value with
    | string =>
      rw [updateAt, putBack] at h
      split at h
      case isTrue ht => rw [ht]; rfl
      · cases h
    | _ => cases h
  | cons segment path ih =>
    intro value after h
    rw [map_cons, foldl_cons, Option.bind_some]
    cases value with
    | object =>
      obtain ⟨changed, hc, -⟩ := Option.map_eq_some_iff.mp h
      obtain ⟨found, put, hf, hp⟩ := updateMember_eq_some hc
      dsimp only
      rw [unescapeSegment_escapeSegment, hf]
      exact ih found put hp
    | array =>
      obtain ⟨index, hidx, hi⟩ := Option.bind_eq_some_iff.mp h
      obtain ⟨changed, hc, -⟩ := Option.map_eq_some_iff.mp hi
      obtain ⟨found, put, hf, hp⟩ := updateItem_eq_some hc
      dsimp only
      rw [unescapeSegment_escapeSegment, hidx, Option.bind_some, hf]
      exact ih found put hp
    | _ => cases h

theorem pointer_of_putBack {path : List Text} {value after : Json}
    (h : updateAt (putBack digest content) path value = some after) :
    value.pointer (pointerText path) = some (.string digest) := by
  cases path with
  | nil => exact walk_of_putBack [] value after h
  | cons segment path =>
    have hs := @splitAll_pointerText (segment :: path) [] not_mem_nil
    rw [nil_append] at hs
    have hco : pointerText (segment :: path) =
        '/' :: (escapeSegment segment ++ pointerText path) := rfl
    have hfo := walk_of_putBack (segment :: path) value after h
    rw [Json.pointer, hs, drop_succ_cons, drop_zero, hco]
    exact hfo

theorem pointer_reference (hd : Distinct value) {place : List Text × Text}
    (hp : place ∈ longs value) :
    (externalize sha256 value [] .none).1.pointer (pointerText place.1) =
      some (.string (hexDigest sha256 place.2)) := by
  rw [externalize_eq]
  exact pointer_of_putBack (updateAt_mask sha256 value _ place.1 place.2 hd hp rfl)

end Digest

end LocalAi.Store.Records
