import LocalAi.PromptCache.File

/-!
# Snapshot files round trip

* `length_storedFile`: the file is as long as `storedBytes` said before checksumming.
* `parseChecksums_checksums`, `check_jobsFrom`, `sectionsFrom_written`: the reader finds the
  sections and their checksums.
* `snapshot_file_round_trip`: all of it, with what `read` rejects.
-/

open List

namespace LocalAi.PromptCache

open Lib

/-! ### Hexadecimal digits -/

theorem length_hex (value : UInt32) : (hex value).length = 8 := rfl

theorem hexValue_hexDigit : ∀ n < 16, hexValue (hexDigit n) = some n := by
  decide

theorem hexDigit_ne_plus : ∀ n < 16, hexDigit n ≠ '+' := by
  decide

theorem hexNumber_cons {n : Nat} (hn : n < 16) (value : Nat) (text : Text) :
    hexNumber value (hexDigit n :: text) = hexNumber (16 * value + n) text := by
  rw [hexNumber, hexValue_hexDigit n hn, Option.bind_some]

theorem fromStrRadix_hex (value : UInt32) : fromStrRadix (hex value) = some value := by
  have hlt : value.toNat < 2 ^ 32 := value.toNat_lt
  have hm : ∀ n, n % 16 < 16 := fun n => Nat.mod_lt n (by decide)
  have hd : hex value = [hexDigit (value.toNat / 16 ^ 7 % 16),
      hexDigit (value.toNat / 16 ^ 6 % 16), hexDigit (value.toNat / 16 ^ 5 % 16),
      hexDigit (value.toNat / 16 ^ 4 % 16), hexDigit (value.toNat / 16 ^ 3 % 16),
      hexDigit (value.toNat / 16 ^ 2 % 16), hexDigit (value.toNat / 16 ^ 1 % 16),
      hexDigit (value.toNat / 16 ^ 0 % 16)] := rfl
  have hnum : hexNumber 0 (hex value) = some value.toNat := by
    rw [hd]
    rw [hexNumber_cons (hm _), hexNumber_cons (hm _), hexNumber_cons (hm _),
      hexNumber_cons (hm _), hexNumber_cons (hm _), hexNumber_cons (hm _),
      hexNumber_cons (hm _), hexNumber_cons (hm _), hexNumber]
    congr 1
    omega
  have hp : ∀ rest, hex value ≠ '+' :: rest := by
    intro rest h
    rw [hd] at h
    exact hexDigit_ne_plus _ (hm _) (cons.inj h).1
  unfold fromStrRadix
  split
  case h_1 rest heq => exact absurd heq (hp rest)
  case h_2 =>
    have hne : (hex value).isEmpty = false := rfl
    dsimp only
    rw [hne, hnum, Option.bind_some, if_pos hlt, UInt32.ofNat_toNat]
    rfl

/-- A hexadecimal digit is written as it is. -/
def Plain (text : Text) : Prop := ∀ c ∈ text, ∃ n < 16, c = hexDigit n

theorem plain_hex (value : UInt32) : Plain (hex value) := by
  intro c hc
  obtain ⟨index, -, rfl⟩ := mem_map.mp hc
  exact ⟨_, Nat.mod_lt _ (by decide), rfl⟩

theorem Plain.escape {text : Text} (h : Plain text) : LocalAi.escape text = text := by
  have hdig : ∀ n < 16, escapeChar (hexDigit n) = [hexDigit n] := by decide
  induction text with
  | nil => rfl
  | cons c text ih =>
    obtain ⟨n, hn, rfl⟩ := h c (mem_cons_self ..)
    rw [LocalAi.escape, flatMap_cons, hdig n hn]
    exact congrArg _ (ih fun d hd => h d (mem_cons_of_mem _ hd))

theorem Plain.utf8Len_eq {text : Text} (h : Plain text) : utf8Len text = text.length := by
  have hdig : ∀ n < 16, (hexDigit n).utf8Size = 1 := by decide
  induction text with
  | nil => rfl
  | cons c text ih =>
    obtain ⟨n, hn, rfl⟩ := h c (mem_cons_self ..)
    rw [utf8Len_cons, hdig n hn, ih fun d hd => h d (mem_cons_of_mem _ hd), length_cons,
      Nat.add_comm]

theorem plain_zeros (count : Nat) : Plain (replicate count '0') := by
  intro c hc
  exact ⟨0, by decide, eq_of_mem_replicate hc⟩

/-! ### Checksums -/

section Checksums

variable (crc32c : Bytes → UInt32)

def blockChecksums (sections : List Bytes) : List UInt32 :=
  sections.flatMap fun bytes => (chunks block bytes).map crc32c

variable (sections : List Bytes)

theorem checksums_eq :
    checksums crc32c sections = (blockChecksums crc32c sections).flatMap hex := by
  rw [checksums, blockChecksums, flatMap_assoc]
  congr
  funext bytes
  rw [flatMap_map]

theorem plain_checksums : Plain (checksums crc32c sections) := by
  rw [checksums_eq]
  intro c hc
  obtain ⟨value, -, hm⟩ := mem_flatMap.mp hc
  exact plain_hex value c hm

theorem length_blockChecksums :
    (blockChecksums crc32c sections).length = ((sections.map length).map blocks).sum := by
  rw [blockChecksums, length_flatMap, map_map]
  congr 1
  refine map_congr_left fun bytes _ => ?_
  rw [length_map, length_chunks, Function.comp_apply, blocks]

theorem length_checksums :
    (checksums crc32c sections).length = checksumDigits (sections.map length) := by
  have hs : ∀ values : List UInt32, (values.flatMap hex).length = values.length * 8 := by
    intro values
    induction values with
    | nil => rfl
    | cons value values ih =>
      rw [flatMap_cons, length_append, length_hex, ih, length_cons]
      omega
  rw [checksums_eq, hs, length_blockChecksums]
  rfl

theorem parseChecksums_checksums :
    parseChecksums (checksums crc32c sections) ((sections.map length).map blocks).sum =
      .ok (blockChecksums crc32c sections) := by
  have hp := plain_checksums crc32c sections
  have hl : utf8Len (checksums crc32c sections) =
      ((sections.map length).map blocks).sum * digitsPerBlock := by
    rw [hp.utf8Len_eq, length_checksums]
    rfl
  have ha : (checksums crc32c sections).any (fun c => decide (128 ≤ c.toNat)) = false := by
    have hd : ∀ n < 16, decide (128 ≤ (hexDigit n).toNat) = false := by decide
    rw [any_eq_false]
    intro c hc
    obtain ⟨n, hn, rfl⟩ := hp c hc
    rw [hd n hn]
    decide
  have hch : chunks digitsPerBlock (checksums crc32c sections) =
      (blockChecksums crc32c sections).map hex := by
    rw [checksums_eq]
    exact chunks_flatMap (by decide) length_hex _
  have hr : ∀ values : List UInt32, (values.map hex).mapM fromStrRadix = some values := by
    intro values
    induction values with
    | nil => rfl
    | cons value values ih => rw [map_cons, mapM_cons, fromStrRadix_hex, ih]; rfl
  rw [parseChecksums, if_neg, hch, hr]
  rw [not_or]
  exact ⟨fun h => h hl, by rw [ha]; decide⟩

end Checksums

/-! ### The header's length -/

theorem length_utf8 (text : Text) : (utf8 text).length = utf8Len text := by
  induction text with
  | nil => rfl
  | cons c text ih =>
    rw [utf8, flatMap_cons, length_append, String.length_utf8EncodeChar, utf8Len_cons]
    exact congrArg _ ih

theorem utf8Len_membersText {front back : List (Text × Json)} {key : Text} {value other : Json}
    (h : utf8Len value.toText = utf8Len other.toText) :
    utf8Len (membersText (front ++ (key, value) :: back)) =
      utf8Len (membersText (front ++ (key, other) :: back)) := by
  induction front with
  | nil =>
    cases back with
    | nil => simp [membersText, h]
    | cons next =>
      obtain ⟨name, member⟩ := next
      simp [membersText, h]
  | cons first front ih =>
    obtain ⟨name, member⟩ := first
    cases front with
    | nil =>
      simp only [nil_append, cons_append] at ih ⊢
      simp only [membersText, utf8Len_append, utf8Len_cons, ih]
    | cons second =>
      obtain ⟨second, inner⟩ := second
      simp only [cons_append] at ih ⊢
      simp only [membersText, utf8Len_append, utf8Len_cons, ih]

theorem length_encoded (stored : Stored) {digits other : Text} (hd : Plain digits)
    (ho : Plain other) (hl : digits.length = other.length) :
    (header stored digits).encoded.length = (header stored other).encoded.length := by
  have hs : utf8Len (Json.string digits).toText = utf8Len (Json.string other).toText := by
    simp only [Json.toText, quote, hd.escape, ho.escape, utf8Len_append, utf8Len_cons,
      hd.utf8Len_eq, ho.utf8Len_eq, hl]
  rw [Header.encoded, Header.encoded, length_utf8, length_utf8]
  simp only [Header.json, header, Json.toText, Option.toList_none, Option.toList_some,
    map_nil, map_cons, append_nil, append_assoc, singleton_append,
    utf8Len_append, utf8Len_cons]
  rw [utf8Len_membersText hs]

/-! ### The preamble -/

theorem fixed_le_nextMultiple (n : Nat) : fixed + n ≤ nextMultiple (fixed + n) align :=
  le_nextMultiple _ (by decide)

theorem Header.encoded_le_size (header : Header) : header.encoded.length ≤ header.size := by
  have := fixed_le_nextMultiple header.encoded.length
  rw [Header.size]
  omega

theorem Header.length_spaced (header : Header) : header.spaced.length = header.size := by
  have := header.encoded_le_size
  rw [Header.spaced, length_append, length_replicate]
  omega

theorem Header.fixed_add_size (header : Header) :
    fixed + header.size = nextMultiple (fixed + header.encoded.length) align := by
  have := fixed_le_nextMultiple header.encoded.length
  rw [Header.size]
  omega

theorem length_preamble (header : Header) : (preamble header).length = fixed + header.size := by
  have hm : magic.length = 8 := rfl
  rw [preamble, length_append, length_append, length_toLe, header.length_spaced, hm, fixed]
  omega

/-! ### The sections -/

theorem length_tokenBytes (tokens : List UInt32) : (tokenBytes tokens).length = tokens.length * 4 := by
  induction tokens with
  | nil => rfl
  | cons token tokens ih =>
    rw [tokenBytes] at ih ⊢
    rw [flatMap_cons, length_append, length_toLe, ih, length_cons]
    omega

theorem map_length_sections (stored : Stored) :
    (sections stored).map length = sectionLengths stored := by
  simp only [sections, sectionLengths, map_cons, map_nil, length_tokenBytes]

theorem writtenSection_eq (bytes : Bytes) : writtenSection bytes = pad align 0 bytes := by
  rw [writtenSection, flatten_chunks (by decide)]
  rfl

theorem length_writtenSection (bytes : Bytes) :
    (writtenSection bytes).length = padded bytes.length := by
  rw [writtenSection_eq, length_pad (by decide)]
  rfl

theorem length_written (parts : List Bytes) :
    (parts.flatMap writtenSection).length = ((parts.map length).map padded).sum := by
  rw [length_flatMap, map_map]
  congr 1
  exact map_congr_left fun bytes _ => length_writtenSection bytes

variable (crc32c : Bytes → UInt32)

/-- The checksums take the room of their placeholder. -/
theorem length_encoded_checksums (stored : Stored) :
    (header stored (checksums crc32c (sections stored))).encoded.length = (header stored
      (replicate (checksumDigits (sectionLengths stored)) '0')).encoded.length :=
  length_encoded stored (plain_checksums crc32c (sections stored)) (plain_zeros _)
    (by rw [length_checksums, map_length_sections, length_replicate])

theorem length_storedFile (stored : Stored) :
    (storedFile crc32c stored).length = storedBytes stored := by
  have he := length_encoded_checksums crc32c stored
  rw [storedFile, length_append, length_written, map_length_sections, length_preamble,
    storedBytes, length_preamble, Header.fixed_add_size, Header.fixed_add_size, he]

/-! ### Reading -/

variable {file : Bytes}

theorem slice_sectionJobs {bytes : Bytes} {offset : Nat}
    (h : slice offset bytes.length file = bytes) (values : List UInt32) :
    (sectionJobs offset bytes.length values).map (fun job => slice job.offset job.length file) =
      chunks block bytes := by
  rw [sectionJobs, map_map, chunks]
  refine map_congr_left fun index hi => ?_
  have hlt : index * block < bytes.length := lt_of_lt_divCeil (mem_range.mp hi)
  have hp := slice_slice h (index * block) (min block (bytes.length - index * block)) (by omega)
  rw [Function.comp_apply, hp, slice, slice, take_eq_take_iff, length_drop]
  omega

theorem sectionsFrom_written {parts : List Bytes} (front rest : Bytes)
    (h : file = front ++ (parts.flatMap writtenSection ++ rest)) :
    sectionsFrom file front.length (parts.map length) = parts := by
  induction parts generalizing front with
  | nil => rfl
  | cons bytes parts ih =>
    have hs : slice front.length bytes.length file = bytes := by
      rw [h, flatMap_cons, writtenSection_eq, pad, append_assoc, append_assoc]
      exact slice_append ..
    have hl := ih (front ++ writtenSection bytes) (by
      rw [h, flatMap_cons, append_assoc, append_assoc])
    rw [length_append, length_writtenSection] at hl
    rw [map_cons, sectionsFrom, slice_sectionJobs hs, flatten_chunks (by decide), hl]

theorem checkBlock_ok {piece : Bytes} {job : Job}
    (hs : slice job.offset job.length file = piece) (hl : piece.length = job.length)
    (hc : crc32c piece = job.checksum) : checkBlock crc32c file job = .ok () := by
  rw [checkBlock, hs, hl, if_neg (Nat.lt_irrefl _), if_pos hc]

theorem check_jobsFrom {parts : List Bytes} (front rest : Bytes)
    (h : file = front ++ (parts.flatMap writtenSection ++ rest)) :
    ∀ job ∈ jobsFrom front.length (parts.map length) (blockChecksums crc32c parts),
      checkBlock crc32c file job = .ok () := by
  induction parts generalizing front with
  | nil => exact nofun
  | cons bytes parts ih =>
    have hs : slice front.length bytes.length file = bytes := by
      rw [h, flatMap_cons, writtenSection_eq, pad, append_assoc, append_assoc]
      exact slice_append ..
    have hcnt : ((chunks block bytes).map crc32c).length = blocks bytes.length := by
      rw [length_map, length_chunks, blocks]
    have hl := ih (front ++ writtenSection bytes) (by
      rw [h, flatMap_cons, append_assoc, append_assoc])
    rw [length_append, length_writtenSection] at hl
    intro job hj
    have hv : blockChecksums crc32c (bytes :: parts) =
        (chunks block bytes).map crc32c ++ blockChecksums crc32c parts := rfl
    rw [hv, map_cons, jobsFrom, sectionJobs, ← hcnt, drop_left, mem_append] at hj
    rcases hj with hj | hj
    · obtain ⟨index, hi, rfl⟩ := mem_map.mp hj
      rw [mem_range, hcnt] at hi
      have hlt : index * block < bytes.length := by
        rw [blocks] at hi
        exact lt_of_lt_divCeil hi
      have hpa := slice_slice hs (index * block)
        (min block (bytes.length - index * block)) (by omega)
      have hp : slice (index * block) (min block (bytes.length - index * block)) bytes =
          slice (index * block) block bytes := by
        rw [slice, slice, take_eq_take_iff, length_drop]
        omega
      have hc : ((chunks block bytes).map crc32c ++ blockChecksums crc32c parts).getD index 0 =
          crc32c (slice (index * block) block bytes) := by
        have hbd : index < ((chunks block bytes).map crc32c).length := by
          rw [hcnt]
          exact hi
        rw [blocks] at hi
        rw [getD_eq_getElem?_getD, getElem?_append_left hbd, getElem?_map,
          getElem?_chunks hi, Option.map_some, Option.getD_some]
      have hlen : (slice (index * block) (min block (bytes.length - index * block)) bytes).length =
          min block (bytes.length - index * block) := by
        rw [slice, length_take, length_drop]
        omega
      refine checkBlock_ok crc32c hpa hlen ?_
      rw [hp, hc]
    · exact hl job hj

theorem start_aligned (header : Header) : (preamble header).length % align = 0 := by
  rw [length_preamble, header.fixed_add_size]
  exact Nat.mod_eq_zero_of_dvd (dvd_nextMultiple _ _)

theorem readHeader_preamble {decode : Bytes → Except Text Header} {header : Header}
    (hs : header.size ≤ maxHeader) (hd : decode header.spaced = .ok header) (rest : Bytes) :
    readHeader decode (preamble header ++ rest) = .ok (header, (preamble header).length) := by
  have hm : magic.length = 8 := rfl
  have hlen := length_preamble header
  have hmax : maxHeader = 1048576 := rfl
  have hfi : fixed = 16 := rfl
  have hf : preamble header ++ rest =
      [] ++ (magic ++ (toLe 8 header.size ++ (header.spaced ++ rest))) := by
    rw [preamble, nil_append, append_assoc, append_assoc]
  have hf' : preamble header ++ rest =
      (magic ++ toLe 8 header.size) ++ (header.spaced ++ rest) := by
    rw [preamble, append_assoc, append_assoc, append_assoc]
  have hfst : slice 0 8 (preamble header ++ rest) = magic := by
    rw [hf]
    exact slice_append [] magic _
  have hsnd : slice 8 8 (preamble header ++ rest) = toLe 8 header.size := by
    have hp := slice_append magic (toLe 8 header.size) (header.spaced ++ rest)
    rw [length_toLe, hm] at hp
    rw [hf, nil_append]
    exact hp
  have ht : slice fixed header.size (preamble header ++ rest) = header.spaced := by
    have hp := slice_append (magic ++ toLe 8 header.size) header.spaced rest
    rw [length_append, length_toLe, hm, header.length_spaced] at hp
    rw [hf']
    exact hp
  have hn : fromLe (toLe 8 header.size) = header.size := by
    exact fromLe_toLe (by omega)
  have hl : fixed + header.size ≤ (preamble header ++ rest).length := by
    rw [length_append, hlen]
    exact Nat.le_add_right _ _
  rw [readHeader, if_neg (by omega), hfst, if_neg (fun h => h rfl), if_neg (by omega)]
  rw [hsnd, hn, if_neg (Nat.not_lt.mpr hs), if_neg (Nat.not_lt.mpr hl), ht, hd, hlen]
  rfl

theorem tokensOf_tokenBytes (tokens : List UInt32) : tokensOf (tokenBytes tokens) = tokens := by
  have hc : chunks 4 (tokenBytes tokens) = tokens.map fun token => toLe 4 token.toNat :=
    chunks_flatMap (by decide) (fun token => length_toLe 4 _) tokens
  have hcnt : (tokenBytes tokens).length / 4 = divCeil (tokenBytes tokens).length 4 := by
    rw [length_tokenBytes, divCeil]
    omega
  have ht : tokensOf (tokenBytes tokens) =
      (chunks 4 (tokenBytes tokens)).map fun piece => UInt32.ofNat (fromLe piece) := by
    rw [tokensOf, hcnt, chunks, map_map]
    rfl
  rw [ht, hc, map_map]
  refine (map_congr_left fun token _ => ?_).trans (map_id _)
  have hlt : token.toNat < 256 ^ 4 := token.toNat_lt
  rw [Function.comp_apply, fromLe_toLe hlt, UInt32.ofNat_toNat]
  rfl

section Stored

variable {decode : Bytes → Except Text Header} (crc32c : Bytes → UInt32) (sha256 : Bytes → Text)
  (stored : Stored)

/-- The header of the file that is written. -/
def storedHeader : Header := header stored (checksums crc32c (sections stored))

theorem readIndex_storedFile (hsi : (storedHeader crc32c stored).size ≤ maxHeader)
    (hd : decode (storedHeader crc32c stored).spaced = .ok (storedHeader crc32c stored)) :
    readIndex decode (storedFile crc32c stored) =
      .ok (storedHeader crc32c stored, tokenBytes stored.tokens) := by
  have hc : (storedHeader crc32c stored).tokenCount * 4 = (tokenBytes stored.tokens).length := by
    rw [length_tokenBytes]
    rfl
  have hf : storedFile crc32c stored = preamble (storedHeader crc32c stored) ++
      (tokenBytes stored.tokens ++ (replicate (padded (tokenBytes stored.tokens).length -
          (tokenBytes stored.tokens).length) 0 ++
          ((sections stored).drop 1).flatMap writtenSection)) := by
    have hse : sections stored = tokenBytes stored.tokens :: (sections stored).drop 1 := rfl
    rw [storedFile, hse, flatMap_cons, writtenSection_eq, pad, append_assoc]
    rfl
  have hr := readHeader_preamble hsi hd ((sections stored).flatMap writtenSection)
  have hsl : slice (preamble (storedHeader crc32c stored)).length
      (tokenBytes stored.tokens).length (storedFile crc32c stored) = tokenBytes stored.tokens := by
    rw [hf]
    exact slice_append ..
  have hl : (preamble (storedHeader crc32c stored)).length +
      (tokenBytes stored.tokens).length ≤ (storedFile crc32c stored).length := by
    rw [hf, length_append, length_append]
    omega
  have hs : storedFile crc32c stored = preamble (storedHeader crc32c stored) ++
      (sections stored).flatMap writtenSection := rfl
  rw [readIndex, hs, hr]
  dsimp only
  rw [hc, ← hs, if_neg (Nat.not_lt.mpr hl), hsl]

def storedPool (readers : Readers) : Pool Job Text :=
  (Pool.start (jobsFrom (preamble (storedHeader crc32c stored)).length (sectionLengths stored)
    (blockChecksums crc32c (sections stored))) (readers.helpers + 1)).run
    (checkBlock crc32c (storedFile crc32c stored)) abandoned readers.turns

theorem read_storedFile (readers : Readers) (htu : ∀ turn ∈ readers.turns, turn.abort = false) :
    read crc32c readers (storedFile crc32c stored) (preamble (storedHeader crc32c stored)).length
        (sectionLengths stored) (checksums crc32c (sections stored)) =
      if (storedPool crc32c stored readers).finished then some (.ok (sections stored)) else none := by
  have hf : storedFile crc32c stored = preamble (storedHeader crc32c stored) ++
      ((sections stored).flatMap writtenSection ++ []) := by
    rw [append_nil]
    rfl
  have ht : (preamble (storedHeader crc32c stored)).length +
      ((sectionLengths stored).map padded).sum = (storedFile crc32c stored).length := by
    rw [hf, append_nil, length_append, length_written, map_length_sections]
  have hfi : ¬ ((preamble (storedHeader crc32c stored)).length % align ≠ 0 ∨
      (preamble (storedHeader crc32c stored)).length + ((sectionLengths stored).map padded).sum ≠
        (storedFile crc32c stored).length) := by
    rw [not_or]
    exact ⟨fun h => h (start_aligned _), fun h => h ht⟩
  have hp := parseChecksums_checksums crc32c (sections stored)
  have hpa := check_jobsFrom crc32c _ [] hf
  have hs := sectionsFrom_written _ [] hf
  rw [map_length_sections] at hp hpa hs
  have hr : Pool.result (storedPool crc32c stored readers).workers = .ok () :=
    Pool.all_pass hpa (readers.helpers + 1) htu
  rw [storedPool] at hr
  rw [read, if_neg hfi, hp]
  dsimp only
  rw [hr, hs, storedPool]
  rfl

theorem load_storedFile (hs : (storedHeader crc32c stored).size ≤ maxHeader)
    (hdec : decode (storedHeader crc32c stored).spaced = .ok (storedHeader crc32c stored))
    (readers : Readers) (ht : ∀ turn ∈ readers.turns, turn.abort = false) :
    load decode crc32c sha256 readers (storedFile crc32c stored) stored.modelKey =
      if (storedPool crc32c stored readers).finished then some (.ok stored.snapshot) else none := by
  have hh : readHeader decode (storedFile crc32c stored) =
      .ok (storedHeader crc32c stored, (preamble (storedHeader crc32c stored)).length) :=
    readHeader_preamble hs hdec ((sections stored).flatMap writtenSection)
  have hk : ¬ (storedHeader crc32c stored).modelKey ≠ stored.modelKey := fun h => h rfl
  have hd : (storedHeader crc32c stored).payloadCrc32c =
      some (checksums crc32c (sections stored)) := rfl
  have hr := read_storedFile crc32c stored readers ht
  rw [sectionLengths] at hr
  rw [load, hh]
  dsimp only
  rw [if_neg hk, hd]
  have hm := congrArg (Option.map fun result : Except Text (List Bytes) =>
    result.bind (snapshotOf (storedHeader crc32c stored))) hr
  refine hm.trans ?_
  split <;> rfl

theorem exists_finished (helpers : Nat) : ∃ turns : List Turn,
    (∀ turn ∈ turns, turn.abort = false) ∧
      (storedPool crc32c stored ⟨helpers, turns⟩).finished = true :=
  @Pool.exists_finish Job Text (checkBlock crc32c (storedFile crc32c stored)) abandoned
    (Pool.start (jobsFrom (preamble (storedHeader crc32c stored)).length (sectionLengths stored)
      (blockChecksums crc32c (sections stored))) (helpers + 1))

end Stored

/-! ### Rejection -/

theorem read_length (readers : Readers) {start : Nat} {lengths : List Nat}
    (digits : Text) (h : start + (lengths.map padded).sum ≠ file.length) :
    ∃ error, read crc32c readers file start lengths digits = some (.error error) := by
  rw [read, if_pos (.inr h)]
  exact ⟨_, rfl⟩

theorem checkBlock_eq_ok {crc32c : Bytes → UInt32} {job : Job}
    (h : checkBlock crc32c file job = .ok ()) :
    crc32c (slice job.offset job.length file) = job.checksum := by
  rw [checkBlock] at h
  split at h
  · cases h
  · split at h
    case isTrue hs => exact hs
    · cases h

theorem read_checksums {crc32c : Bytes → UInt32} {readers : Readers} {start : Nat}
    {lengths : List Nat} {digits : Text} {found : List Bytes} {values : List UInt32}
    (hr : read crc32c readers file start lengths digits = some (.ok found))
    (hv : parseChecksums digits (lengths.map blocks).sum = .ok values) :
    ∀ job ∈ jobsFrom start lengths values,
      crc32c (slice job.offset job.length file) = job.checksum := by
  rw [read] at hr
  split at hr
  · cases hr
  · rw [hv] at hr
    dsimp only at hr
    split at hr
    case isTrue hf =>
      have hok : Pool.result ((Pool.start (jobsFrom start lengths values)
          (readers.helpers + 1)).run (checkBlock crc32c file) abandoned readers.turns).workers =
          .ok () := by
        cases hres : Pool.result ((Pool.start (jobsFrom start lengths values)
          (readers.helpers + 1)).run (checkBlock crc32c file) abandoned readers.turns).workers with
        | ok done => rfl
        | error error =>
          rw [hres] at hr
          cases hr
      intro job hj
      exact checkBlock_eq_ok (Pool.finished_ok (Nat.succ_pos _) hf hok job hj)
    case isFalse => cases hr

/-- For every snapshot: its file is as long as predicted, it is loaded as it was stored, whoever
reads, and its tokens are found; and a file of another length, or with a block of another
checksum, is not read. -/
theorem snapshot_file_round_trip (decode : Bytes → Except Text Header) (crc32c : Bytes → UInt32)
    (sha256 : Bytes → Text) : (∀ stored, (storedFile crc32c stored).length = storedBytes stored ∧
      ((storedHeader crc32c stored).size ≤ maxHeader →
        decode (storedHeader crc32c stored).spaced = .ok (storedHeader crc32c stored) →
        (∀ readers : Readers, (∀ turn ∈ readers.turns, turn.abort = false) →
          load decode crc32c sha256 readers (storedFile crc32c stored) stored.modelKey = none ∨
          load decode crc32c sha256 readers (storedFile crc32c stored) stored.modelKey =
            some (.ok stored.snapshot)) ∧
        (∀ helpers, ∃ turns : List Turn, (∀ turn ∈ turns, turn.abort = false) ∧
          load decode crc32c sha256 ⟨helpers, turns⟩ (storedFile crc32c stored) stored.modelKey =
            some (.ok stored.snapshot)) ∧
        ∃ bytes, readIndex decode (storedFile crc32c stored) =
            .ok (storedHeader crc32c stored, bytes) ∧ tokensOf bytes = stored.tokens)) ∧
    ∀ file start lengths digits readers,
      (start + (lengths.map padded).sum ≠ file.length →
        ∃ error, read crc32c readers file start lengths digits = some (.error error)) ∧
      ∀ values, parseChecksums digits (lengths.map blocks).sum = .ok values →
        ∀ job ∈ jobsFrom start lengths values,
          crc32c (slice job.offset job.length file) ≠ job.checksum →
          ∀ found, read crc32c readers file start lengths digits ≠ some (.ok found) := by
  refine ⟨fun stored => ⟨length_storedFile crc32c stored, fun hs hdec => ⟨?_, ?_, ?_⟩⟩, ?_⟩
  · intro readers ht
    rw [load_storedFile crc32c sha256 stored hs hdec readers ht]
    split
    · exact .inr rfl
    · exact .inl rfl
  · intro helpers
    obtain ⟨turns, ht, hf⟩ := exists_finished crc32c stored helpers
    refine ⟨turns, ht, ?_⟩
    rw [load_storedFile crc32c sha256 stored hs hdec ⟨helpers, turns⟩ ht, if_pos hf]
  · exact ⟨_, readIndex_storedFile crc32c stored hs hdec, tokensOf_tokenBytes stored.tokens⟩
  · intro file start lengths digits readers
    refine ⟨read_length crc32c readers digits, fun values hv job hj hd found hr => ?_⟩
    exact hd (read_checksums hr hv job hj)

/-- A prompt of two tokens; the sections of the draft head are empty. -/
def shortPrompt : Stored where
  modelKey := "bonsai".toList
  tokens := [1, 70000]
  sessionId := some "a".toList
  snapshot := ⟨2, "f16".toList, [1, 2, 3], [], [4, 5], []⟩
  reusableBoundary := true

def shortDecode (bytes : Bytes) : Except Text Header :=
  if bytes = (storedHeader crc32cBitwise shortPrompt).spaced then
    .ok (storedHeader crc32cBitwise shortPrompt)
  else .error "expected value".toList

theorem size_shortPrompt : (storedHeader crc32cBitwise shortPrompt).size ≤ maxHeader := by
  rw [Header.size, storedHeader, length_encoded_checksums]
  decide +kernel

theorem shortDecode_spaced : shortDecode (storedHeader crc32cBitwise shortPrompt).spaced =
    .ok (storedHeader crc32cBitwise shortPrompt) := by
  rw [shortDecode, if_pos rfl]

theorem shortPrompt_round_trip : (storedHeader crc32cBitwise shortPrompt).size ≤ maxHeader ∧
    shortDecode (storedHeader crc32cBitwise shortPrompt).spaced =
      .ok (storedHeader crc32cBitwise shortPrompt) ∧
    ∃ turns, load shortDecode crc32cBitwise (fun _ => []) ⟨15, turns⟩
        (storedFile crc32cBitwise shortPrompt) shortPrompt.modelKey =
      some (.ok shortPrompt.snapshot) := by
  obtain ⟨-, hr⟩ := (snapshot_file_round_trip shortDecode crc32cBitwise fun _ => []).1 shortPrompt
  obtain ⟨turns, -, hl⟩ := (hr size_shortPrompt shortDecode_spaced).2.1 15
  exact ⟨size_shortPrompt, shortDecode_spaced, turns, hl⟩

end LocalAi.PromptCache
