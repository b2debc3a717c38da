import LocalAi.Lib.Base64
import LocalAi.Tools.Classify

/-!
# Envelopes that carry sealed reasoning

The reasoning of a response is sealed into a text that the client keeps and sends back.  The
version, the nonce and the item's id stand in front of the ciphertext; the domain, the version, the
model and the item are bound to it as associated data.

* `sealIn`, `unsealIn`: an envelope is written, and opened.
* `sealedItemId`: the item an envelope says it is for, without the key.

The AEAD and the letters of base64 are parameters; so is the answer of the random number generator.
An index past the end of a slice is a fault of its own.
-/

namespace LocalAi.Reasoning

open Lib (divCeil slice toLe utf8Bytes ensure)

abbrev Bytes := List UInt8

/-- A `str`: its length is a word. -/
structure Str where
  text : Text
  fits : (utf8Bytes text).length < 2 ^ 64

def Str.bytes (s : Str) : Bytes := utf8Bytes s.text

theorem Str.bytes_lt (s : Str) : s.bytes.length < 2 ^ 64 := s.fits

/-! ### Limits -/

def version : UInt8 := 2

/-- Longest item id an envelope carries. -/
def maxItemIdBytes : Nat := 255

def nonceLen : Nat := 12

/-- The length of an authentication tag. -/
def tagLen : Nat := 16

def headerLen : Nat := 1 + nonceLen

/-- Largest reasoning text that may be sealed. -/
def maxReasoningBytes : Nat := 16 * 1024 * 1024

def maxEnvelopeChars : Nat :=
  divCeil (headerLen + 1 + maxItemIdBytes + maxReasoningBytes + tagLen) 3 * 4

inductive Domain where
  | reasoning
  | compaction
  deriving DecidableEq

def Domain.bytes : Domain → Bytes
  | .reasoning => utf8Bytes "local-ai/reasoning-envelope".toList
  | .compaction => utf8Bytes "local-ai/compaction-envelope".toList

structure Nonce where
  bytes : Bytes
  length_eq : bytes.length = nonceLen

/-! ### Parameters -/

/-- An engine of base64: what it writes is read back, a third longer. -/
structure Base64 where
  encode : Bytes → Text
  decode : Text → Option Bytes
  decode_encode : ∀ bytes, decode (encode bytes) = some bytes
  length_encode : ∀ bytes, (utf8Bytes (encode bytes)).length = divCeil (bytes.length * 4) 3

/-- An AEAD; it seals into a ciphertext and a tag, and opens one behind the other. -/
structure Aead (Key : Type) where
  sealSeparateTag : Key → Bytes → Bytes → Bytes → Option (Bytes × Bytes)
  openInPlace : Key → Bytes → Bytes → Bytes → Option Bytes

/-! ### Envelopes -/

inductive ReasoningCryptoError where
  | randomness
  | cipher
  | payloadTooLarge
  | malformedEnvelope
  | unsupportedVersion (version : UInt8)
  | authentication
  deriving DecidableEq

inductive Fault where
  | failed (error : ReasoningCryptoError)
  | outOfBounds
  deriving DecidableEq

def okOr {α : Type} (found : Option α) (error : ReasoningCryptoError) : Except Fault α :=
  found.elim (.error (.failed error)) .ok

/-- `&bytes[start..stop]`. -/
def index (bytes : Bytes) (start stop : Nat) : Except Fault Bytes :=
  if start ≤ stop ∧ stop ≤ bytes.length then .ok (slice start (stop - start) bytes)
  else .error .outOfBounds

/-- `bytes.get(start..stop)`. -/
def get? (bytes : Bytes) (start stop : Nat) : Option Bytes :=
  if start ≤ stop ∧ stop ≤ bytes.length then some (slice start (stop - start) bytes) else none

/-- `u64::to_be_bytes`. -/
def toBe (n : Nat) : Bytes := (toLe 8 n).reverse

def frame (part : Bytes) : Bytes := toBe part.length ++ part

def associatedData (domain : Bytes) (version : UInt8) (modelId itemId : Str) : Bytes :=
  domain ++ version :: [modelId, itemId].flatMap fun part => frame part.bytes

/-- The item's id in a decoded envelope, after the version is checked. -/
def splitItemId (sealed : Bytes) : Except Fault Bytes := do
  let found ← okOr sealed.head? .malformedEnvelope
  ensure (found = version) (.failed (.unsupportedVersion found))
  let len ← okOr sealed[headerLen]? .malformedEnvelope
  okOr (get? sealed (headerLen + 1) (headerLen + 1 + len.toNat)) .malformedEnvelope

section

variable {Key : Type} (base64 : Base64) (aead : Aead Key)

/-- `nonce` is what the random number generator answers. -/
def sealIn (key : Key) (nonce : Option Nonce) (domain : Domain) (modelId itemId reasoning : Str) :
    Except Fault Text := do
  ensure (reasoning.bytes.length ≤ maxReasoningBytes ∧ itemId.bytes.length ≤ maxItemIdBytes)
    (.failed .payloadTooLarge)
  let nonce ← okOr nonce .randomness
  let aad := associatedData domain.bytes version modelId itemId
  let start := headerLen + 1 + itemId.bytes.length
  let len ← okOr (if itemId.bytes.length < 256 then some (UInt8.ofNat itemId.bytes.length) else none)
    .cipher
  let sealed := version :: nonce.bytes ++ len :: (itemId.bytes ++ reasoning.bytes)
  let plaintext ← index sealed start sealed.length
  let (ciphertext, tag) ← okOr (aead.sealSeparateTag key nonce.bytes aad plaintext) .cipher
  .ok (base64.encode (sealed.take start ++ ciphertext ++ tag))

def unsealIn (key : Key) (domain : Domain) (modelId itemId : Str) (envelope : Text) :
    Except Fault Text := do
  ensure ((utf8Bytes envelope).length ≤ maxEnvelopeChars) (.failed .malformedEnvelope)
  let sealed ← okOr (base64.decode envelope) .malformedEnvelope
  let carried ← splitItemId sealed
  ensure (carried = itemId.bytes) (.failed .authentication)
  let start := headerLen + 1 + carried.length
  ensure (start + tagLen ≤ sealed.length) (.failed .malformedEnvelope)
  let nonce ← index sealed 1 headerLen
  -- `copy_from_slice` into an array of the nonce's length
  ensure (nonce.length = nonceLen) .outOfBounds
  let aad := associatedData domain.bytes version modelId itemId
  let ciphertext ← index sealed start sealed.length
  let plaintext ← okOr (aead.openInPlace key nonce aad ciphertext) .authentication
  okOr ((String.fromUTF8? ⟨plaintext.toArray⟩).map String.toList) .authentication

def sealedItemId (envelope : Text) : Except Fault (Option Text) :=
  if (utf8Bytes envelope).length > maxEnvelopeChars then .ok none
  else
    match base64.decode envelope with
    | none => .ok none
    | some sealed =>
      match splitItemId sealed with
      | .ok carried => .ok ((String.fromUTF8? ⟨carried.toArray⟩).map String.toList)
      | .error (.failed _) => .ok none
      | .error .outOfBounds => .error .outOfBounds

end

end LocalAi.Reasoning
