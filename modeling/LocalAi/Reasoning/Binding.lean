import LocalAi.Reasoning.Envelope

/-!
# An envelope opens where it belongs

* `Aead.Ideal`: what is opened is one of the sealings that were made, where it was made.
* `associatedData_injective`: the domain, the model and the item are read off the associated data.
* `sealIn_eq_ok`, `unsealIn_eq_ok`: what is written, and what is opened.
* `envelopes_open_where_they_belong`.
-/

open List

namespace LocalAi.Reasoning

open Lib

/-! ### An ideal AEAD -/

structure Sealing (Key : Type) where
  key : Key
  nonce : Bytes
  aad : Bytes
  plaintext : Bytes
  deriving DecidableEq

variable {Key : Type}

/-- The ciphertext and the tag behind it. -/
def Aead.sealed (aead : Aead Key) (s : Sealing Key) : Option Bytes :=
  (aead.sealSeparateTag s.key s.nonce s.aad s.plaintext).map fun out => out.1 ++ out.2

/-- The most bytes that AES-GCM seals under one nonce. -/
def maxInOutLen : Nat := 2 ^ 36 - 32

/-- **An ideal AEAD**, where the sealings of `made` are made: it opens the output of one of them,
under its key, nonce and associated data, and nothing else. -/
structure Aead.Ideal (aead : Aead Key) (made : Sealing Key → Prop) : Prop where
  seals : ∀ key nonce aad plaintext, plaintext.length ≤ maxInOutLen →
    ∃ ciphertext tag, aead.sealSeparateTag key nonce aad plaintext = some (ciphertext, tag) ∧
      ciphertext.length = plaintext.length ∧ tag.length = tagLen
  opens : ∀ key nonce aad bytes plaintext, aead.openInPlace key nonce aad bytes = some plaintext ↔
    made ⟨key, nonce, aad, plaintext⟩ ∧ aead.sealed ⟨key, nonce, aad, plaintext⟩ = some bytes
  apart : ∀ s s', made s → made s' → aead.sealed s = aead.sealed s' → s = s'

/-! ### Associated data -/

theorem toBe_injective {n n' : Nat} (h : n < 2 ^ 64) (h' : n' < 2 ^ 64) (heq : toBe n = toBe n') :
    n = n' := by
  have hle := congrArg fromLe (reverse_inj.mp heq)
  rwa [fromLe_toLe (by omega), fromLe_toLe (by omega)] at hle

variable {rest nonce itemId : Bytes}

variable {rest' : Bytes} {domain : Domain} {modelId : Str} {error : ReasoningCryptoError}
  {envelope : Text}

theorem frame_append {part part' : Bytes} (h : part.length < 2 ^ 64)
    (h' : part'.length < 2 ^ 64) (heq : frame part ++ rest = frame part' ++ rest') :
    part = part' ∧ rest = rest' := by
  rw [frame, frame, append_assoc, append_assoc] at heq
  obtain ⟨hl, hr⟩ := append_inj heq (by simp [toBe])
  exact append_inj hr (toBe_injective h h' hl)

theorem domain_append {domain' : Domain}
    (h : domain.bytes ++ rest = domain'.bytes ++ rest') : domain = domain' := by
  have ht := congrArg (·[9]?) h
  have hlt : ∀ d : Domain, 9 < d.bytes.length := by
    intro d
    cases d <;> decide
  rw [getElem?_append_left (hlt _), getElem?_append_left (hlt _)] at ht
  cases domain <;> cases domain' <;> first | rfl | exact absurd ht (by decide)

theorem utf8Bytes_injective {a b : Text} (h : utf8Bytes a = utf8Bytes b) : a = b := by
  have ha := fromUTF8?_eq.mpr h
  rw [fromUTF8?_eq.mpr rfl] at ha
  exact (Option.some.inj ha).symm

theorem Str.ext_bytes {s s' : Str} (h : s.bytes = s'.bytes) : s = s' := by
  obtain ⟨text, fits⟩ := s
  obtain ⟨text', fits'⟩ := s'
  obtain rfl : text = text' := utf8Bytes_injective h
  rfl

theorem associatedData_injective {domain' : Domain} {modelId' itemId itemId' : Str}
    (h : associatedData domain.bytes version modelId itemId =
      associatedData domain'.bytes version modelId' itemId') :
    domain = domain' ∧ modelId = modelId' ∧ itemId = itemId' := by
  obtain rfl := domain_append h
  have hp := (cons.inj (append_cancel_left h)).2
  obtain ⟨hm, hr⟩ := frame_append modelId.bytes_lt modelId'.bytes_lt hp
  obtain ⟨hi, -⟩ := frame_append itemId.bytes_lt itemId'.bytes_lt hr
  exact ⟨rfl, Str.ext_bytes hm, Str.ext_bytes hi⟩

/-! ### The layout -/

/-- An envelope's bytes, in front of its ciphertext. -/
def written (nonce itemId rest : Bytes) : Bytes :=
  version :: nonce ++ UInt8.ofNat itemId.length :: (itemId ++ rest)

theorem length_written {nonce itemId rest : Bytes} (hn : nonce.length = nonceLen) :
    (written nonce itemId rest).length = headerLen + 1 + itemId.length + rest.length := by
  simp only [written, headerLen, cons_append, length_cons, length_append, hn]
  omega

theorem okOr_eq_ok {α : Type} {found : Option α} {a : α} :
    okOr found error = .ok a ↔ found = some a := elim_eq_ok

theorem okOr_ne_outOfBounds {α : Type} {found : Option α} :
    okOr found error ≠ .error .outOfBounds := by
  cases found <;> simp [okOr]

theorem ensure_ne_outOfBounds {holds : Bool} :
    ensure holds (.failed error) ≠ .error Fault.outOfBounds := by
  cases holds <;> simp [ensure]

/-- **What has an item's id** is laid out as an envelope. -/
theorem splitItemId_eq_ok {sealed carried : Bytes} : splitItemId sealed = .ok carried ↔
      ∃ nonce rest, nonce.length = nonceLen ∧ carried.length ≤ maxItemIdBytes ∧
        sealed = written nonce carried rest := by
  constructor
  · intro h
    obtain ⟨found, hf, hch⟩ := bind_eq_ok.mp h
    obtain ⟨_, hv, hr⟩ := bind_eq_ok.mp hch
    obtain ⟨len, hlen, hid⟩ := bind_eq_ok.mp hr
    obtain rfl : found = version := of_decide_eq_true (ensure_eq_ok.mp hv)
    obtain ⟨tail, rfl⟩ := List.head?_eq_some_iff.mp (okOr_eq_ok.mp hf)
    replace hlen : tail[nonceLen]? = some len := okOr_eq_ok.mp hlen
    replace hid := okOr_eq_ok.mp hid
    obtain ⟨hlt, hg⟩ := List.getElem?_eq_some_iff.mp hlen
    unfold get? at hid
    split at hid
    case isFalse => cases hid
    case isTrue hle =>
      have hc := (Option.some.inj hid).symm
      have hs : headerLen + 1 + len.toNat - (headerLen + 1) = len.toNat := by omega
      rw [slice, hs, headerLen, Nat.add_comm 1 nonceLen, drop_succ_cons] at hc
      have hl : carried.length = len.toNat := by
        have hw := hle.2
        rw [length_cons, headerLen] at hw
        rw [hc, length_take, length_drop]
        omega
      refine ⟨tail.take nonceLen, (tail.drop (nonceLen + 1)).drop len.toNat, ?_, ?_, ?_⟩
      · rw [length_take]
        omega
      · have hb := len.toNat_lt
        rw [hl, maxItemIdBytes]
        omega
      · rw [written, hl, UInt8.ofNat_toNat, hc, take_append_drop, ← hg,
          cons_append, ← drop_eq_getElem_cons hlt, take_append_drop]
  · rintro ⟨nonce, rest, hn, hc, rfl⟩
    have hlen : (UInt8.ofNat carried.length).toNat = carried.length := by
      rw [maxItemIdBytes] at hc
      rw [UInt8.toNat_ofNat']
      omega
    refine bind_eq_ok.mpr ⟨version, okOr_eq_ok.mpr rfl, ?_⟩
    refine bind_eq_ok.mpr ⟨(), ensure_eq_ok.mpr (decide_eq_true rfl), ?_⟩
    have hat : (written nonce carried rest)[headerLen]? = some (UInt8.ofNat carried.length) := by
      rw [written, headerLen, Nat.add_comm 1 nonceLen, cons_append, getElem?_cons_succ,
        ← hn, getElem?_append_right le_rfl, Nat.sub_self]
      rfl
    refine bind_eq_ok.mpr ⟨_, okOr_eq_ok.mpr hat, okOr_eq_ok.mpr ?_⟩
    have hs : headerLen + 1 + carried.length - (headerLen + 1) = carried.length := by omega
    have hd : (written nonce carried rest).drop (headerLen + 1) = carried ++ rest := by
      rw [written, headerLen, Nat.add_comm 1 nonceLen, cons_append, drop_succ_cons,
        ← hn, ← drop_drop, drop_left]
      rfl
    rw [get?, if_pos ⟨by omega, by rw [length_written hn, hlen]; omega⟩, hlen, slice, hs,
      hd, take_left]

theorem splitItemId_ne_outOfBounds {sealed : Bytes} :
    splitItemId sealed ≠ .error .outOfBounds := by
  intro h
  rcases bind_eq_error.mp h with h | ⟨found, -, h⟩
  · exact okOr_ne_outOfBounds h
  rcases bind_eq_error.mp h with h | ⟨-, -, h⟩
  · exact ensure_ne_outOfBounds h
  rcases bind_eq_error.mp h with h | ⟨len, -, h⟩
  · exact okOr_ne_outOfBounds h
  · exact okOr_ne_outOfBounds h

theorem written_injective {nonce' itemId' : Bytes} (hn : nonce.length = nonceLen)
    (hn' : nonce'.length = nonceLen) (hi : itemId.length ≤ maxItemIdBytes)
    (hi' : itemId'.length ≤ maxItemIdBytes)
    (h : written nonce itemId rest = written nonce' itemId' rest') :
    nonce = nonce' ∧ itemId = itemId' ∧ rest = rest' := by
  have hs := splitItemId_eq_ok.mpr ⟨nonce, rest, hn, hi, rfl⟩
  rw [h, splitItemId_eq_ok.mpr ⟨nonce', rest', hn', hi', rfl⟩] at hs
  obtain rfl := Except.ok.inj hs
  obtain ⟨rfl, hb⟩ := append_inj (cons.inj h).2 (hn.trans hn'.symm)
  exact ⟨rfl, rfl, append_cancel_left (cons.inj hb).2⟩

/-- What stands in front of a ciphertext. -/
def front (nonce itemId : Bytes) : Bytes :=
  version :: nonce ++ UInt8.ofNat itemId.length :: itemId

theorem length_front (hn : nonce.length = nonceLen) :
    (front nonce itemId).length = headerLen + 1 + itemId.length := by
  simp only [front, headerLen, cons_append, length_cons, length_append, hn]
  omega

theorem written_eq (nonce itemId rest : Bytes) :
    written nonce itemId rest = front nonce itemId ++ rest := by
  simp only [written, front, cons_append, append_assoc]

theorem take_written (hn : nonce.length = nonceLen) :
    (written nonce itemId rest).take (headerLen + 1 + itemId.length) = front nonce itemId := by
  rw [written_eq, ← length_front hn, take_left]

theorem index_written (hn : nonce.length = nonceLen) :
    index (written nonce itemId rest) (headerLen + 1 + itemId.length)
      (written nonce itemId rest).length = .ok rest := by
  have hl := @length_written nonce itemId rest hn
  rw [index, if_pos ⟨by omega, le_rfl⟩, slice, written_eq, ← length_front hn,
    drop_left, take_of_length_le (by rw [length_append]; omega)]

theorem index_nonce (hn : nonce.length = nonceLen) :
    index (written nonce itemId rest) 1 headerLen = .ok nonce := by
  have hl := @length_written nonce itemId rest hn
  rw [index, if_pos ⟨by decide, by omega⟩, slice, written, headerLen, Nat.add_sub_cancel_left,
    cons_append, drop_succ_cons, drop_zero, ← hn, take_left]

/-! ### What is written and what is opened -/

variable {base64 : Base64} {aead : Aead Key} {key : Key}

theorem sealIn_eq_ok {nonce : Nonce} {itemId reasoning : Str} :
    sealIn base64 aead key (some nonce) domain modelId itemId reasoning = .ok envelope ↔
      reasoning.bytes.length ≤ maxReasoningBytes ∧ itemId.bytes.length ≤ maxItemIdBytes ∧
      ∃ ciphertext tag,
        aead.sealSeparateTag key nonce.bytes (associatedData domain.bytes version modelId itemId)
          reasoning.bytes = some (ciphertext, tag) ∧
        envelope = base64.encode (written nonce.bytes itemId.bytes (ciphertext ++ tag)) := by
  have hw (ciphertext tag : Bytes) :
      (written nonce.bytes itemId.bytes reasoning.bytes).take
        (headerLen + 1 + itemId.bytes.length) ++ ciphertext ++ tag =
      written nonce.bytes itemId.bytes (ciphertext ++ tag) := by
    rw [take_written nonce.length_eq, append_assoc, written_eq]
  constructor
  · intro h
    obtain ⟨_, hsi, h⟩ := bind_eq_ok.mp h
    obtain ⟨hr, hi⟩ := of_decide_eq_true (ensure_eq_ok.mp hsi)
    obtain ⟨nonce', hn, h⟩ := bind_eq_ok.mp h
    obtain rfl := Option.some.inj (okOr_eq_ok.mp hn)
    obtain ⟨len, hl, h⟩ := bind_eq_ok.mp h
    rw [if_pos (by rw [maxItemIdBytes] at hi; omega)] at hl
    obtain rfl := Option.some.inj (okOr_eq_ok.mp hl)
    obtain ⟨plaintext, hp, h⟩ := bind_eq_ok.mp h
    obtain rfl := Except.ok.inj ((index_written nonce.length_eq).symm.trans hp)
    obtain ⟨⟨ciphertext, tag⟩, hs, h⟩ := bind_eq_ok.mp h
    exact ⟨hr, hi, ciphertext, tag, okOr_eq_ok.mp hs,
      (Except.ok.inj h).symm.trans (congrArg _ (hw ciphertext tag))⟩
  · rintro ⟨hr, hi, ciphertext, tag, hs, rfl⟩
    refine bind_eq_ok.mpr ⟨(), ensure_eq_ok.mpr (decide_eq_true ⟨hr, hi⟩), ?_⟩
    refine bind_eq_ok.mpr ⟨nonce, rfl, ?_⟩
    rw [if_pos (by rw [maxItemIdBytes] at hi; omega)]
    refine bind_eq_ok.mpr ⟨_, rfl, bind_eq_ok.mpr ⟨_, index_written nonce.length_eq, ?_⟩⟩
    refine bind_eq_ok.mpr ⟨(ciphertext, tag), okOr_eq_ok.mpr hs, ?_⟩
    exact congrArg (fun bytes => Except.ok (base64.encode bytes)) (hw ciphertext tag)

theorem unsealIn_eq_ok {itemId : Str} {text : Text} :
    unsealIn base64 aead key domain modelId itemId envelope = .ok text ↔
      (utf8Bytes envelope).length ≤ maxEnvelopeChars ∧
      ∃ nonce rest, nonce.length = nonceLen ∧ itemId.bytes.length ≤ maxItemIdBytes ∧
        base64.decode envelope = some (written nonce itemId.bytes rest) ∧ tagLen ≤ rest.length ∧
        aead.openInPlace key nonce (associatedData domain.bytes version modelId itemId) rest =
          some (utf8Bytes text) := by
  constructor
  · intro h
    obtain ⟨_, hsi, h⟩ := bind_eq_ok.mp h
    obtain ⟨sealed, hs, h⟩ := bind_eq_ok.mp h
    obtain ⟨carried, hc, h⟩ := bind_eq_ok.mp h
    obtain ⟨_, hi, h⟩ := bind_eq_ok.mp h
    obtain ⟨_, ht, h⟩ := bind_eq_ok.mp h
    obtain ⟨found, hfo, h⟩ := bind_eq_ok.mp h
    obtain ⟨_, -, h⟩ := bind_eq_ok.mp h
    obtain ⟨rest, hr, h⟩ := bind_eq_ok.mp h
    obtain ⟨plaintext, ho, hte⟩ := bind_eq_ok.mp h
    obtain rfl := fromUTF8?_eq.mp (okOr_eq_ok.mp hte)
    obtain rfl : carried = itemId.bytes := of_decide_eq_true (ensure_eq_ok.mp hi)
    obtain ⟨nonce, rest', hn, hl, rfl⟩ := splitItemId_eq_ok.mp hc
    obtain rfl := Except.ok.inj ((index_nonce hn).symm.trans hfo)
    obtain rfl := Except.ok.inj ((index_written hn).symm.trans hr)
    have hf := of_decide_eq_true (ensure_eq_ok.mp ht)
    rw [length_written hn] at hf
    exact ⟨of_decide_eq_true (ensure_eq_ok.mp hsi), nonce, rest', hn, hl,
      okOr_eq_ok.mp hs, by omega, okOr_eq_ok.mp ho⟩
  · rintro ⟨hsi, nonce, rest, hn, hl, hs, ht, ho⟩
    refine bind_eq_ok.mpr ⟨(), ensure_eq_ok.mpr (decide_eq_true hsi), ?_⟩
    refine bind_eq_ok.mpr ⟨_, okOr_eq_ok.mpr hs, ?_⟩
    refine bind_eq_ok.mpr ⟨_, splitItemId_eq_ok.mpr ⟨nonce, rest, hn, hl, rfl⟩, ?_⟩
    refine bind_eq_ok.mpr ⟨(), ensure_eq_ok.mpr (decide_eq_true rfl), ?_⟩
    have hf : headerLen + 1 + itemId.bytes.length + tagLen ≤
        (written nonce itemId.bytes rest).length := by
      rw [length_written hn]
      omega
    refine bind_eq_ok.mpr ⟨(), ensure_eq_ok.mpr (decide_eq_true hf), ?_⟩
    refine bind_eq_ok.mpr ⟨nonce, index_nonce hn, ?_⟩
    refine bind_eq_ok.mpr ⟨(), ensure_eq_ok.mpr (decide_eq_true hn), ?_⟩
    refine bind_eq_ok.mpr ⟨rest, index_written hn, ?_⟩
    exact bind_eq_ok.mpr ⟨_, okOr_eq_ok.mpr ho, okOr_eq_ok.mpr (fromUTF8?_eq.mpr rfl)⟩

/-- **No envelope** is read past its end. -/
theorem unsealIn_ne_outOfBounds {itemId : Str} :
    unsealIn base64 aead key domain modelId itemId envelope ≠ .error .outOfBounds := by
  intro h
  rcases bind_eq_error.mp h with h | ⟨_, -, h⟩
  · exact ensure_ne_outOfBounds h
  rcases bind_eq_error.mp h with h | ⟨sealed, -, h⟩
  · exact okOr_ne_outOfBounds h
  rcases bind_eq_error.mp h with h | ⟨carried, hca, h⟩
  · exact splitItemId_ne_outOfBounds h
  obtain ⟨nonce, rest, hn, -, rfl⟩ := splitItemId_eq_ok.mp hca
  rcases bind_eq_error.mp h with h | ⟨_, -, h⟩
  · exact ensure_ne_outOfBounds h
  rcases bind_eq_error.mp h with h | ⟨_, -, h⟩
  · exact ensure_ne_outOfBounds h
  rw [index_nonce hn, index_written hn] at h
  rcases bind_eq_error.mp h with h | ⟨found, hf, hc⟩
  · cases h
  obtain rfl := Except.ok.inj hf
  rw [ensure_eq_ok (u := ()).mpr (decide_eq_true hn)] at hc
  rcases bind_eq_error.mp hc with h | ⟨_, -, h⟩
  · cases h
  rcases bind_eq_error.mp h with h | ⟨_, -, h⟩
  · cases h
  rcases bind_eq_error.mp h with h | ⟨plaintext, -, h⟩
  · exact okOr_ne_outOfBounds h
  · exact okOr_ne_outOfBounds h

theorem sealedItemId_ne_outOfBounds : sealedItemId base64 envelope ≠ .error .outOfBounds := by
  intro h
  unfold sealedItemId at h
  split at h
  · cases h
  split at h
  · cases h
  split at h
  · cases h
  · cases h
  · next hs => exact splitItemId_ne_outOfBounds hs

theorem sealedItemId_eq {item : Text}
    (hsi : (utf8Bytes envelope).length ≤ maxEnvelopeChars) (hn : nonce.length = nonceLen)
    (hl : itemId.length ≤ maxItemIdBytes) (hi : utf8Bytes item = itemId)
    (h : base64.decode envelope = some (written nonce itemId rest)) :
    sealedItemId base64 envelope = .ok (some item) := by
  have hs := splitItemId_eq_ok.mpr ⟨nonce, rest, hn, hl, rfl⟩
  simp only [sealedItemId, if_neg (Nat.not_lt.mpr hsi), h, hs]
  rw [fromUTF8?_eq.mpr hi]

/-! ### Sealings -/

def sealingOf (key : Key) (nonce : Nonce) (domain : Domain) (modelId itemId reasoning : Str) :
    Sealing Key :=
  ⟨key, nonce.bytes, associatedData domain.bytes version modelId itemId, reasoning.bytes⟩

theorem length_envelope {nonce itemId rest : Bytes} (hn : nonce.length = nonceLen)
    (hi : itemId.length ≤ maxItemIdBytes) (hr : rest.length ≤ maxReasoningBytes + tagLen) :
    (utf8Bytes (base64.encode (written nonce itemId rest))).length ≤ maxEnvelopeChars := by
  have hl := @length_written nonce itemId rest hn
  rw [base64.length_encode, maxEnvelopeChars, divCeil, divCeil]
  omega

/-- **Envelopes open where they belong**, where the AEAD is ideal and the sealing was made. -/
theorem envelopes_open_where_they_belong (base64 : Base64) (aead : Aead Key)
    (made : Sealing Key → Prop) (hideal : aead.Ideal made) (key : Key) (nonce : Nonce)
    (domain : Domain) (modelId itemId reasoning : Str) : ((∃ envelope,
        sealIn base64 aead key (some nonce) domain modelId itemId reasoning = .ok envelope) ↔
      reasoning.bytes.length ≤ maxReasoningBytes ∧ itemId.bytes.length ≤ 255) ∧ (∀ envelope,
      sealIn base64 aead key (some nonce) domain modelId itemId reasoning = .ok envelope →
      made (sealingOf key nonce domain modelId itemId reasoning) →
      (utf8Bytes envelope).length ≤ maxEnvelopeChars ∧
      sealedItemId base64 envelope = .ok (some itemId.text) ∧
      ∀ domain' modelId' itemId',
        ((domain', modelId', itemId') = (domain, modelId, itemId) →
          unsealIn base64 aead key domain' modelId' itemId' envelope = .ok reasoning.text) ∧
        ((domain', modelId', itemId') ≠ (domain, modelId, itemId) →
          ∃ error, unsealIn base64 aead key domain' modelId' itemId' envelope =
            .error (.failed error))) ∧ (∀ domain' modelId' itemId',
      associatedData domain.bytes version modelId itemId =
        associatedData domain'.bytes version modelId' itemId' →
      (domain, modelId, itemId) = (domain', modelId', itemId')) ∧ ∀ envelope,
      unsealIn base64 aead key domain modelId itemId envelope ≠ .error .outOfBounds ∧
      sealedItemId base64 envelope ≠ .error .outOfBounds := by
  refine ⟨⟨?_, ?_⟩, ?_, ?_, fun envelope => ⟨unsealIn_ne_outOfBounds, sealedItemId_ne_outOfBounds⟩⟩
  · rintro ⟨envelope, h⟩
    obtain ⟨hr, hi, -⟩ := sealIn_eq_ok.mp h
    exact ⟨hr, hi⟩
  · rintro ⟨hr, hi⟩
    obtain ⟨ciphertext, tag, hs, -⟩ := hideal.seals key nonce.bytes
      (associatedData domain.bytes version modelId itemId) reasoning.bytes
      (by rw [maxReasoningBytes] at hr; rw [maxInOutLen]; omega)
    exact ⟨_, sealIn_eq_ok.mpr ⟨hr, hi, ciphertext, tag, hs, rfl⟩⟩
  · intro envelope h hm
    obtain ⟨hr, hi, ciphertext, tag, hs, rfl⟩ := sealIn_eq_ok.mp h
    obtain ⟨ciphertext', tag', hs', hl, ht⟩ := hideal.seals key nonce.bytes
      (associatedData domain.bytes version modelId itemId) reasoning.bytes
      (by rw [maxReasoningBytes] at hr; rw [maxInOutLen]; omega)
    obtain ⟨rfl, rfl⟩ := Prod.mk.inj (Option.some.inj (hs.symm.trans hs'))
    have hre : (ciphertext ++ tag).length = reasoning.bytes.length + tagLen := by
      rw [length_append, hl, ht]
    have ho : aead.sealed (sealingOf key nonce domain modelId itemId reasoning) =
        some (ciphertext ++ tag) := by
      rw [Aead.sealed, sealingOf, hs, Option.map_some]
    have hsi := @length_envelope base64 _ _ _ nonce.length_eq hi
      (show (ciphertext ++ tag).length ≤ maxReasoningBytes + tagLen by omega)
    have hd := base64.decode_encode (written nonce.bytes itemId.bytes (ciphertext ++ tag))
    refine ⟨hsi, sealedItemId_eq hsi nonce.length_eq hi rfl hd, ?_⟩
    intro domain' modelId' itemId'
    constructor
    · intro hsa
      cases hsa
      exact unsealIn_eq_ok.mpr ⟨hsi, nonce.bytes, ciphertext ++ tag, nonce.length_eq, hi,
        hd, by omega, (hideal.opens _ _ _ _ _).mpr ⟨hm, ho⟩⟩
    · intro hoth
      cases hopen : unsealIn base64 aead key domain' modelId' itemId'
          (base64.encode (written nonce.bytes itemId.bytes (ciphertext ++ tag))) with
      | error fault =>
        cases fault with
        | failed error => exact ⟨error, rfl⟩
        | outOfBounds => exact absurd hopen unsealIn_ne_outOfBounds
      | ok text =>
        -- what opens is a sealing with this output, and only this one was sealed into it
        obtain ⟨-, nonce', rest, hn', hi', hd', -, hopens⟩ :=
          unsealIn_eq_ok.mp hopen
        rw [hd] at hd'
        obtain ⟨rfl, -, rfl⟩ := written_injective nonce.length_eq hn' hi hi' (Option.some.inj hd')
        obtain ⟨hm', ho'⟩ := (hideal.opens _ _ _ _ _).mp hopens
        have hone := hideal.apart _ _ hm hm' (ho.trans ho'.symm)
        obtain ⟨rfl, rfl, rfl⟩ := associatedData_injective (Sealing.mk.inj hone).2.2.1
        exact absurd rfl hoth
  · intro domain' modelId' itemId' h
    obtain ⟨rfl, rfl, rfl⟩ := associatedData_injective h
    rfl

/-! ### A sealing of AES-256-GCM -/

def urlSafeNoPad : Base64 where
  encode := Lib.Base64.encode
  decode := Lib.Base64.decode
  decode_encode := Lib.Base64.decode_encode
  length_encode := Lib.Base64.length_utf8_encode

def itemStr : Str := ⟨"rs_1".toList, by decide⟩

def modelStr : Str := ⟨"m".toList, by decide⟩

def hiStr : Str := ⟨"hi".toList, by decide⟩

def hiNonce : Nonce := ⟨[0, 1, 2, 3, 4, 5, 6, 7, 8, 9, 10, 11], by decide⟩

def sevens : Bytes := List.replicate 32 7

def hiSealing : Sealing Bytes := sealingOf sevens hiNonce .reasoning modelStr itemStr hiStr

def hiOutput : Bytes × Bytes :=
  ([112, 232], [83, 77, 149, 42, 215, 46, 36, 172, 17, 161, 62, 135, 200, 145, 182, 237])

/-- AES-256-GCM, as it seals that text and opens it. -/
def hiAead : Aead Bytes where
  sealSeparateTag key nonce aad plaintext :=
    if (⟨key, nonce, aad, plaintext⟩ : Sealing Bytes) = hiSealing then some hiOutput
    else some (plaintext, List.replicate tagLen 0)
  openInPlace key nonce aad bytes :=
    if key = hiSealing.key ∧ nonce = hiSealing.nonce ∧ aad = hiSealing.aad ∧
        bytes = hiOutput.1 ++ hiOutput.2 then some hiSealing.plaintext
    else none

theorem hiAead_sealed : hiAead.sealed hiSealing = some (hiOutput.1 ++ hiOutput.2) := by
  simp [Aead.sealed, hiAead]

theorem hiAead_ideal : hiAead.Ideal (· = hiSealing) where
  seals key nonce aad plaintext _ := by
    by_cases h : (⟨key, nonce, aad, plaintext⟩ : Sealing Bytes) = hiSealing
    · refine ⟨_, _, if_pos h, ?_, rfl⟩
      rw [show plaintext = hiSealing.plaintext from congrArg Sealing.plaintext h]
      decide
    · exact ⟨_, _, if_neg h, rfl, length_replicate⟩
  opens key nonce aad bytes plaintext := by
    simp only [hiAead, Option.ite_none_right_eq_some, Option.some.injEq]
    constructor
    · rintro ⟨⟨rfl, rfl, rfl, rfl⟩, rfl⟩
      exact ⟨rfl, hiAead_sealed⟩
    · rintro ⟨hm, ho⟩
      obtain ⟨hk, hn, ha, hp⟩ := Sealing.mk.inj hm
      rw [hm] at ho
      exact ⟨⟨hk, hn, ha, (Option.some.inj (hiAead_sealed.symm.trans ho)).symm⟩, hp.symm⟩
  apart s s' h h' _ := h.trans h'.symm

theorem hi_opens_as_reasoning : ∃ envelope,
    sealIn urlSafeNoPad hiAead sevens (some hiNonce) .reasoning modelStr itemStr hiStr =
      .ok envelope ∧ sealedItemId urlSafeNoPad envelope = .ok (some itemStr.text) ∧
    unsealIn urlSafeNoPad hiAead sevens .reasoning modelStr itemStr envelope = .ok hiStr.text ∧
    ∃ error, unsealIn urlSafeNoPad hiAead sevens .compaction modelStr itemStr envelope =
      .error (.failed error) := by
  obtain ⟨hse, ho, -⟩ := envelopes_open_where_they_belong urlSafeNoPad hiAead
    (· = hiSealing) hiAead_ideal sevens hiNonce .reasoning modelStr itemStr hiStr
  obtain ⟨envelope, hs⟩ := hse.mpr ⟨by decide, by decide⟩
  obtain ⟨-, hid, hw⟩ := ho envelope hs rfl
  exact ⟨envelope, hs, hid, (hw .reasoning modelStr itemStr).1 rfl,
    (hw .compaction modelStr itemStr).2 fun h => by cases h⟩

end LocalAi.Reasoning
