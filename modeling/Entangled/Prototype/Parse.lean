import Entangled.Prototype.Iss
import Entangled.Prototype.Mask
import Entangled.Prototype.Numbers
/-!
# Parsing a payload

`mam_parse` goes through the fields of a payload: two numbers, the next root, the message, the nonce,
a signature, a number again and the siblings. Before most of them it checks that the payload does
not end there, and it never checks that the field ends within it.
-/

namespace Entangled

namespace Prototype

open Merkle Ternary Bounded

/-- What `mam_parse` hands back, with the payload as it leaves it. -/
structure Parsed where
  message : List ℤ
  messageLength : ℕ
  index : ℕ
  nextRoot : List ℤ
  security : ℕ
  payload : List ℤ
  encCurl : CurlState

section

variable (undef : ℕ → ℤ) (F : CurlP)

/-- `mam_init_encryption`. -/
def mamInitEncryption (sideKey merkleRoot : List ℤ) (encCurl : CurlState) : CurlState :=
  F.absorb (F.absorb encCurl sideKey) merkleRoot

/-- The end of `mam_parse`, from the number of siblings on: the root they lead to. -/
def parseSiblings (rest hash : List ℤ) (index : ℕ) (encCurl : CurlState) :
    Bounded (List ℤ × CurlState) := do
  giveUpIf (rest = [])
  let number ← takeLong undef rest
  let siblingsNumber := toSize number.1.toInt
  if siblingsNumber ≠ 0 then do
    giveUpIf (rest.drop number.2 = [])
    let siblings ← read rest number.2 (243 * siblingsNumber)
    pure (merkleRoot F.curl hash siblings siblingsNumber index encCurl)
  else pure (hash, encCurl)

/-- The address a signature leads to: `iss_curl_sig_digest` and `iss_curl_address`, with what they
leave of the signature and the sponge. -/
def signer (hash sig : List ℤ) : List ℤ × List ℤ × CurlState :=
  let r := issCurlSigDigest F.curl hash hash 0 sig sig.length F.curl.reset
  let address := issCurlAddress F.curl r.2.1 243 r.2.2.2
  (address.1, r.2.2.1, address.2)

/-- `mam_parse` from the security on, which it hands back with what is left of the payload and the
sponge. -/
def parseSignature (rest root : List ℤ) (index : ℕ) (encCurl : CurlState) :
    Bounded (ℕ × List ℤ × CurlState) := do
  let hash := encCurl.trits.take 243
  let security := signedWindow hash
  let rest := (F.unmask rest encCurl).1
  giveUpIf (security = 0)
  let sig ← read rest 0 (security * issKeyLength)
  let signer := signer F hash sig
  let rest := rest.drop (security * issKeyLength)
  let top ← parseSiblings undef F rest signer.1 index signer.2.2
  giveUpIf (top.1 ≠ root)
  pure (security, signer.2.1 ++ rest, top.2)

/-- `mam_parse` from the next root on. -/
def parseBody (rest root : List ℤ) (index messageLength : ℕ) (encCurl : CurlState) :
    Bounded Parsed := do
  let masked ← read rest 0 243
  let nextRoot := F.unmask masked encCurl
  let afterRoot := rest.drop 243
  giveUpIf (afterRoot = [])
  let masked ← read afterRoot 0 messageLength
  let message := F.unmask masked nextRoot.2
  let afterMessage := afterRoot.drop messageLength
  giveUpIf (afterMessage = [])
  let masked ← read afterMessage 0 81
  let nonce := F.unmask masked message.2
  let afterNonce := afterMessage.drop 81
  giveUpIf (afterNonce = [])
  let signed ← parseSignature undef F afterNonce root index nonce.2
  pure {
    message := message.1, messageLength, index, nextRoot := nextRoot.1, security := signed.1
    payload := rest.take (243 + messageLength) ++ nonce.1 ++ signed.2.1
    encCurl := signed.2.2 }

/-- `mam_parse`. -/
def mamParse (payload sideKey root : List ℤ) (encCurl : CurlState) : Bounded Parsed := do
  let encCurl := mamInitEncryption F sideKey root encCurl
  giveUpIf (payload = [])
  let index ← takeLong undef payload
  let rest := payload.drop index.2
  giveUpIf (rest = [])
  let length ← takeLong undef rest
  let rest := rest.drop length.2
  giveUpIf (rest = [])
  let head := payload.take (index.2 + length.2)
  let parsed ← parseBody undef F rest root (toSize index.1.toInt) (toSize length.1.toInt)
    (F.absorb encCurl head)
  pure { parsed with payload := head ++ parsed.payload }

end

/-! ## Which payloads are read within bounds -/

section

variable (undef : ℕ → ℤ) (F : CurlP)

/-- The siblings are there, as many as the number says; or the payload ends in front of them. -/
def SiblingsFit (rest : List ℤ) : Prop :=
  rest = [] ∨ ∃ number size, Number undef rest number size ∧
    (toSize number.toInt = 0 ∨ rest.drop size = [] ∨
      size + 243 * toSize number.toInt ≤ rest.length)

/-- The signature is there, of the length the window asks for, and behind it the siblings; or there
is no window. -/
def SignatureFits (rest : List ℤ) (encCurl : CurlState) : Prop :=
  let window := signedWindow (encCurl.trits.take 243)
  window = 0 ∨ window * issKeyLength ≤ rest.length ∧
    SiblingsFit undef ((F.unmask rest encCurl).1.drop (window * issKeyLength))

/-- The sponge when the next root, a message and the nonce have been unmasked. -/
def sponge (rest : List ℤ) (messageLength : ℕ) (encCurl : CurlState) : CurlState :=
  let c := (F.unmask (rest.take 243) encCurl).2
  let c := (F.unmask ((rest.drop 243).take messageLength) c).2
  (F.unmask ((rest.drop (243 + messageLength)).take 81) c).2

/-- The next root, the message, the nonce and the signature are there; or the payload ends right
behind one of the first three. -/
def BodyFits (rest : List ℤ) (messageLength : ℕ) (encCurl : CurlState) : Prop :=
  rest.length = 243 ∨ rest.length = 243 + messageLength ∨
    rest.length = 243 + messageLength + 81 ∨
    243 + messageLength + 81 < rest.length ∧
      SignatureFits undef F (rest.drop (243 + messageLength + 81)) (sponge F rest messageLength encCurl)

/-- The two numbers are there, and behind them the rest; or the payload ends in front of or right
behind one of them. -/
def Fits (payload sideKey root : List ℤ) (encCurl : CurlState) : Prop :=
  payload = [] ∨ ∃ index size, Number undef payload index size ∧
    (payload.drop size = [] ∨ ∃ length size', Number undef (payload.drop size) length size' ∧
      (payload.drop (size + size') = [] ∨
        BodyFits undef F (payload.drop (size + size')) (toSize length.toInt)
          (F.absorb (mamInitEncryption F sideKey root encCurl) (payload.take (size + size')))))

variable {undef F} {rest hash root payload sideKey : List ℤ} {index messageLength : ℕ}
variable {encCurl : CurlState}

theorem noFault_parseSiblings (hrest : Trits rest) :
    (parseSiblings undef F rest hash index encCurl).NoFault ↔ SiblingsFit undef rest := by
  rw [parseSiblings, noFault_giveUpIf_bind, SiblingsFit]
  refine or_congr Iff.rfl ?_
  rw [noFault_takeLong_bind hrest]
  refine exists_congr fun number => exists_congr fun size => and_congr_right fun _ => ?_
  dsimp only
  split_ifs with hzero
  · rw [noFault_giveUpIf_bind, noFault_read_bind, or_iff_right hzero]
    exact or_congr Iff.rfl (and_iff_left (noFault_ok _))
  · exact iff_of_true (noFault_ok _) (.inl (not_not.mp hzero))

theorem noFault_parseSignature (hrest : Trits rest) (hc : Trits encCurl.trits) :
    (parseSignature undef F rest root index encCurl).NoFault ↔ SignatureFits undef F rest encCurl := by
  have hplain := (CurlP.trits_unmask (F := F) hrest hc).1
  rw [parseSignature, noFault_giveUpIf_bind, SignatureFits]
  refine or_congr Iff.rfl ?_
  rw [noFault_read_bind, CurlP.length_unmask, Nat.zero_add]
  refine and_congr_right fun _ => ?_
  rw [noFault_bind, noFault_parseSiblings (hplain.drop _)]
  refine and_iff_left fun top _ => ?_
  rw [noFault_giveUpIf_bind]
  exact .inr (noFault_ok _)

theorem trits_sponge (hrest : Trits rest) (hc : Trits encCurl.trits) :
    Trits (sponge F rest messageLength encCurl).trits := by
  have h₁ := (CurlP.trits_unmask (F := F) (hrest.take 243) hc).2
  have h₂ := (CurlP.trits_unmask (F := F) ((hrest.drop 243).take messageLength) h₁).2
  exact (CurlP.trits_unmask (F := F) ((hrest.drop (243 + messageLength)).take 81) h₂).2

theorem noFault_parseBody (hrest : Trits rest) (hc : Trits encCurl.trits) :
    (parseBody undef F rest root index messageLength encCurl).NoFault ↔
      BodyFits undef F rest messageLength encCurl := by
  have hlast := @trits_sponge F rest messageLength encCurl hrest hc
  have hsign := @noFault_parseSignature undef F _ root index _
    (hrest.drop (243 + messageLength + 81)) hlast
  rw [parseBody, noFault_read_bind, noFault_giveUpIf_bind, noFault_read_bind,
    noFault_giveUpIf_bind, noFault_read_bind, noFault_giveUpIf_bind, noFault_bind, BodyFits]
  simp only [List.drop_zero, List.drop_drop, List.length_drop, List.drop_eq_nil_iff, Nat.zero_add]
  refine Iff.trans (and_congr_right fun _ => or_congr Iff.rfl <| and_congr_right fun _ =>
    or_congr Iff.rfl <| and_congr_right fun _ => or_congr Iff.rfl <|
      (and_iff_left fun _ _ => noFault_ok _).trans hsign) ?_
  generalize SignatureFits undef F (rest.drop (243 + messageLength + 81))
    (sponge F rest messageLength encCurl) = S
  by_cases hS : S
  · simp only [hS, and_true, or_true]
    omega
  · simp only [hS, and_false, or_false]
    omega

/-- **A payload is read within bounds exactly when it fits.** -/
theorem noFault_mamParse (hpayload : Trits payload) (hkey : Trits sideKey) (hroot : Trits root)
    (hc : Trits encCurl.trits) :
    (mamParse undef F payload sideKey root encCurl).NoFault ↔
      Fits undef F payload sideKey root encCurl := by
  have hinit : Trits (mamInitEncryption F sideKey root encCurl).trits :=
    CurlP.trits_absorb (CurlP.trits_absorb hc hkey) hroot
  rw [mamParse, noFault_giveUpIf_bind, Fits]
  refine or_congr Iff.rfl ?_
  rw [noFault_takeLong_bind hpayload]
  refine exists_congr fun index => exists_congr fun size => and_congr_right fun _ => ?_
  rw [noFault_giveUpIf_bind]
  refine or_congr Iff.rfl ?_
  rw [noFault_takeLong_bind (hpayload.drop size)]
  refine exists_congr fun length => exists_congr fun size' => and_congr_right fun _ => ?_
  rw [noFault_giveUpIf_bind, List.drop_drop]
  refine or_congr Iff.rfl ?_
  rw [noFault_bind, noFault_parseBody (hpayload.drop _)
    (CurlP.trits_absorb hinit (hpayload.take (size + size')))]
  exact and_iff_left fun _ _ => noFault_ok _

/-! ## What is accepted -/

/-- What is behind the nonce holds a signature of the level that the window gives, a number and as
many siblings, and they lead to the root. -/
def Signed (undef : ℕ → ℤ) (F : CurlP) (rest root : List ℤ) (index : ℕ) (encCurl : CurlState)
    (security : ℕ) : Prop :=
  let hash := encCurl.trits.take 243
  let plain := (F.unmask rest encCurl).1
  let place := security * issKeyLength
  let signer := signer F hash (plain.take place)
  security = signedWindow hash ∧ security ≠ 0 ∧ place < plain.length ∧
    ∃ number size, Number undef (plain.drop place) number size ∧
      (toSize number.toInt = 0 ∨ place + size + 243 * toSize number.toInt ≤ plain.length) ∧
      (merkleRoot F.curl signer.1 ((plain.drop (place + size)).take (243 * toSize number.toInt))
        (toSize number.toInt) index signer.2.2).1 = root

/-- A payload holds what was parsed: each field is there as a whole, the last ones sign the others,
and they lead to the root. -/
def WellFormed (undef : ℕ → ℤ) (F : CurlP) (payload sideKey root : List ℤ) (encCurl : CurlState)
    (p : Parsed) : Prop :=
  ∃ index size length size', Number undef payload index size ∧
    Number undef (payload.drop size) length size' ∧
    let rest := payload.drop (size + size')
    let c := F.absorb (mamInitEncryption F sideKey root encCurl) (payload.take (size + size'))
    let nextRoot := F.unmask (rest.take 243) c
    let place := 243 + p.messageLength + 81
    p.index = toSize index.toInt ∧ p.messageLength = toSize length.toInt ∧ place < rest.length ∧
      p.nextRoot = nextRoot.1 ∧
      p.message = (F.unmask ((rest.drop 243).take p.messageLength) nextRoot.2).1 ∧
      Signed undef F (rest.drop place) root p.index (sponge F rest p.messageLength c) p.security

theorem parseSiblings_ok (hrest : Trits rest) {top : List ℤ × CurlState}
    (hok : parseSiblings undef F rest hash index encCurl = .ok top) :
    rest ≠ [] ∧ ∃ number size, Number undef rest number size ∧
      (toSize number.toInt = 0 ∨ size + 243 * toSize number.toInt ≤ rest.length) ∧
      top = merkleRoot F.curl hash ((rest.drop size).take (243 * toSize number.toInt))
        (toSize number.toInt) index encCurl := by
  rw [parseSiblings] at hok
  obtain ⟨_, hne, hok⟩ := bind_eq_ok_iff.mp hok
  obtain ⟨⟨number, size⟩, htake, hok⟩ := bind_eq_ok_iff.mp hok
  refine ⟨giveUpIf_eq_ok_iff.mp hne, number, size, (takeLong_ok_iff hrest).mp htake, ?_⟩
  dsimp only at hok
  split_ifs at hok with hzero
  · obtain ⟨_, -, hok⟩ := bind_eq_ok_iff.mp hok
    obtain ⟨siblings, hread, hok⟩ := bind_eq_ok_iff.mp hok
    obtain ⟨hle, rfl⟩ := read_eq_ok_iff.mp hread
    exact ⟨.inr hle, (Except.ok.inj hok).symm⟩
  · rw [not_not.mp hzero]
    exact ⟨.inl rfl, (Except.ok.inj hok).symm⟩

theorem parseSignature_ok (hrest : Trits rest) (hc : Trits encCurl.trits)
    {signed : ℕ × List ℤ × CurlState}
    (hok : parseSignature undef F rest root index encCurl = .ok signed) :
    Signed undef F rest root index encCurl signed.1 := by
  have hplain := (CurlP.trits_unmask (F := F) hrest hc).1
  rw [parseSignature] at hok
  obtain ⟨_, hwindow, hok⟩ := bind_eq_ok_iff.mp hok
  obtain ⟨sig, hread, hok⟩ := bind_eq_ok_iff.mp hok
  obtain ⟨top, hsiblings, hok⟩ := bind_eq_ok_iff.mp hok
  obtain ⟨_, hroot, hok⟩ := bind_eq_ok_iff.mp hok
  obtain ⟨-, rfl⟩ := read_eq_ok_iff.mp hread
  obtain ⟨hne, number, size, hnumber, hfit, rfl⟩ := parseSiblings_ok (hplain.drop _) hsiblings
  have hlen := List.length_pos_iff.mpr hne
  rw [List.length_drop] at hlen hfit
  rw [List.drop_drop] at hroot
  have hplace := Nat.sub_pos_iff_lt.mp hlen
  have hsiblings : toSize number.toInt = 0 ∨ signedWindow (encCurl.trits.take 243) * issKeyLength +
      size + 243 * toSize number.toInt ≤ (F.unmask rest encCurl).1.length := by omega
  rw [← Except.ok.inj hok]
  exact ⟨rfl, giveUpIf_eq_ok_iff.mp hwindow, hplace, number, size, hnumber, hsiblings,
    not_not.mp (giveUpIf_eq_ok_iff.mp hroot)⟩

theorem parseBody_ok (hrest : Trits rest) (hc : Trits encCurl.trits) {p : Parsed}
    (hok : parseBody undef F rest root index messageLength encCurl = .ok p) :
    let nextRoot := F.unmask (rest.take 243) encCurl
    243 + messageLength + 81 < rest.length ∧ p.index = index ∧ p.messageLength = messageLength ∧
      p.nextRoot = nextRoot.1 ∧
      p.message = (F.unmask ((rest.drop 243).take messageLength) nextRoot.2).1 ∧
      Signed undef F (rest.drop (243 + messageLength + 81)) root index
        (sponge F rest messageLength encCurl) p.security := by
  rw [parseBody] at hok
  obtain ⟨_, hread₁, hok⟩ := bind_eq_ok_iff.mp hok
  obtain ⟨_, -, hok⟩ := bind_eq_ok_iff.mp hok
  obtain ⟨_, hread₂, hok⟩ := bind_eq_ok_iff.mp hok
  obtain ⟨_, -, hok⟩ := bind_eq_ok_iff.mp hok
  obtain ⟨_, hread₃, hok⟩ := bind_eq_ok_iff.mp hok
  obtain ⟨_, hend, hok⟩ := bind_eq_ok_iff.mp hok
  obtain ⟨signed, hsigned, hok⟩ := bind_eq_ok_iff.mp hok
  obtain ⟨-, rfl⟩ := read_eq_ok_iff.mp hread₁
  obtain ⟨-, rfl⟩ := read_eq_ok_iff.mp hread₂
  obtain ⟨-, rfl⟩ := read_eq_ok_iff.mp hread₃
  obtain rfl := Except.ok.inj hok
  have hlen := List.length_pos_iff.mpr (giveUpIf_eq_ok_iff.mp hend)
  simp only [List.length_drop] at hlen
  refine ⟨by omega, rfl, rfl, rfl, rfl, ?_⟩
  have hlast := @trits_sponge F rest messageLength encCurl hrest hc
  simp only [List.drop_zero, List.drop_drop] at hsigned
  exact parseSignature_ok (hrest.drop _) hlast hsigned

/-- **What is parsed is well formed.** -/
theorem wellFormed_of_ok (hpayload : Trits payload) (hkey : Trits sideKey) (hroot : Trits root)
    (hc : Trits encCurl.trits) {p : Parsed}
    (hok : mamParse undef F payload sideKey root encCurl = .ok p) :
    WellFormed undef F payload sideKey root encCurl p := by
  have hinit : Trits (mamInitEncryption F sideKey root encCurl).trits :=
    CurlP.trits_absorb (CurlP.trits_absorb hc hkey) hroot
  rw [mamParse] at hok
  obtain ⟨_, -, hok⟩ := bind_eq_ok_iff.mp hok
  obtain ⟨⟨index, size⟩, hindex, hok⟩ := bind_eq_ok_iff.mp hok
  obtain ⟨_, -, hok⟩ := bind_eq_ok_iff.mp hok
  obtain ⟨⟨length, size'⟩, hlength, hok⟩ := bind_eq_ok_iff.mp hok
  obtain ⟨_, -, hok⟩ := bind_eq_ok_iff.mp hok
  obtain ⟨parsed, hparsed, hok⟩ := bind_eq_ok_iff.mp hok
  obtain rfl := Except.ok.inj hok
  rw [List.drop_drop] at hparsed
  obtain ⟨hplace, heq, hmessage, hbody⟩ := parseBody_ok (hpayload.drop _)
    (CurlP.trits_absorb hinit (hpayload.take (size + size'))) hparsed
  rw [← hmessage, ← heq] at hbody
  rw [← hmessage] at hplace
  exact ⟨index, size, length, size', (takeLong_ok_iff hpayload).mp hindex,
    (takeLong_ok_iff (hpayload.drop size)).mp hlength, heq, hmessage, hplace, hbody⟩

end

/-! ## Staying inside the payload -/

/-- A call of `mam_parse`. -/
structure Input where
  payload : List ℤ
  sideKey : List ℤ
  root : List ℤ
  encCurl : CurlState
  trits_payload : Trits payload
  trits_sideKey : Trits sideKey
  trits_root : Trits root
  trits_encCurl : Trits encCurl.trits
  length_root : root.length = 243

/-- The call stays inside its payload: it touches nothing else and uses nothing that is not set, the
length of a message that it decodes is no more than is left, and where no parts are to be found in
the payload it gives up. -/
structure StaysInside (undef : ℕ → ℤ) (F : CurlP) (x : Input) : Prop where
  noFault : (mamParse undef F x.payload x.sideKey x.root x.encCurl).NoFault
  fits : ∀ index size length size', takeLong undef x.payload = .ok (index, size) →
    x.payload.drop size ≠ [] → takeLong undef (x.payload.drop size) = .ok (length, size') →
      toSize length.toInt ≤ (x.payload.drop (size + size')).length
  gives_up : (¬ ∃ p, WellFormed undef F x.payload x.sideKey x.root x.encCurl p) →
    mamParse undef F x.payload x.sideKey x.root x.encCurl = .error .failed

/-- `Fits`, and of the message the length is no more than what follows it. -/
def FitsInside (undef : ℕ → ℤ) (F : CurlP) (x : Input) : Prop :=
  x.payload = [] ∨ ∃ index size, Number undef x.payload index size ∧
    (x.payload.drop size = [] ∨ ∃ length size', Number undef (x.payload.drop size) length size' ∧
      toSize length.toInt ≤ (x.payload.drop (size + size')).length ∧
        (x.payload.drop (size + size') = [] ∨
          BodyFits undef F (x.payload.drop (size + size')) (toSize length.toInt)
            (F.absorb (mamInitEncryption F x.sideKey x.root x.encCurl)
              (x.payload.take (size + size')))))

section

variable {undef : ℕ → ℤ} {trits : List ℤ} {v w : Int64} {size size' : ℕ}

/-- A number is read in one way. -/
theorem Number.unique (htrits : Trits trits) (hv : Number undef trits v size)
    (hw : Number undef trits w size') : w = v ∧ size' = size := by
  have heq := ((takeLong_ok_iff htrits).mpr hw).symm.trans ((takeLong_ok_iff htrits).mpr hv)
  exact Prod.mk.inj (Except.ok.inj heq)

theorem Number.ne_nil (hv : Number undef trits v size) : trits ≠ [] := by
  rintro rfl
  obtain ⟨hsize, ⟨-, rfl, -⟩ | ⟨-, h4, -⟩⟩ := hv
  · exact absurd hsize (by decide)
  · exact absurd (h4.trans hsize) (by decide)

/-- Zeros never end. -/
theorem not_number_replicate (n : ℕ) : ¬ Number undef (List.replicate n 0) v size := by
  rintro ⟨-, ⟨hzero, -⟩ | ⟨-, -, k, -, -, hpos, -⟩⟩
  · rw [List.take_replicate] at hzero
    have hone : (1 : ℤ) ∈ List.replicate (min 4 n) 0 := hzero ▸ by decide
    exact absurd (List.eq_of_mem_replicate hone) (by decide)
  · rw [block, List.drop_replicate, List.take_replicate, value_replicate_zero] at hpos
    exact absurd hpos (by decide)

end

theorem fitsInside_iff (undef : ℕ → ℤ) (F : CurlP) (x : Input) :
    FitsInside undef F x ↔ Fits undef F x.payload x.sideKey x.root x.encCurl ∧
      ∀ index size length size', Number undef x.payload index size →
        x.payload.drop size ≠ [] → Number undef (x.payload.drop size) length size' →
          toSize length.toInt ≤ (x.payload.drop (size + size')).length := by
  constructor
  · rintro (hnil | ⟨index, size, hindex, hnil | ⟨length, size', hlength, hle, hrest⟩⟩)
    · exact ⟨.inl hnil, fun index _ _ _ hindex => absurd hnil hindex.ne_nil⟩
    · refine ⟨.inr ⟨index, size, hindex, .inl hnil⟩, fun i s l s' hi hne => ?_⟩
      obtain ⟨-, rfl⟩ := hindex.unique x.trits_payload hi
      exact absurd hnil hne
    · refine ⟨.inr ⟨index, size, hindex, .inr ⟨length, size', hlength, hrest⟩⟩,
        fun i s l s' hi _ hl => ?_⟩
      obtain ⟨-, rfl⟩ := hindex.unique x.trits_payload hi
      obtain ⟨rfl, rfl⟩ := hlength.unique (x.trits_payload.drop _) hl
      exact hle
  · rintro ⟨hnil | ⟨index, size, hindex, hnil | ⟨length, size', hlength, hrest⟩⟩, hle⟩
    · exact .inl hnil
    · exact .inr ⟨index, size, hindex, .inl hnil⟩
    · exact .inr ⟨index, size, hindex, .inr ⟨length, size', hlength,
        hle index size length size' hindex hlength.ne_nil hlength, hrest⟩⟩

/-- **When the payload is what is read.** For every payload, side key, root and state of the sponge,
`mam_parse` stays inside the payload exactly when what the numbers announce is there. -/
theorem staysInside_iff (undef : ℕ → ℤ) (F : CurlP) (x : Input) :
    StaysInside undef F x ↔ FitsInside undef F x := by
  have hnoFault := @noFault_mamParse undef F _ _ _ _ x.trits_payload x.trits_sideKey x.trits_root
    x.trits_encCurl
  rw [fitsInside_iff]
  constructor
  · rintro ⟨hno, hfits, -⟩
    refine ⟨hnoFault.mp hno, fun index size length size' hindex hne hlength => ?_⟩
    exact hfits index size length size' ((takeLong_ok_iff x.trits_payload).mpr hindex) hne
      ((takeLong_ok_iff (x.trits_payload.drop size)).mpr hlength)
  · rintro ⟨hfit, hle⟩
    refine ⟨hnoFault.mpr hfit, fun index size length size' hindex hne hlength => ?_, fun hnone => ?_⟩
    · exact hle index size length size' ((takeLong_ok_iff x.trits_payload).mp hindex) hne
        ((takeLong_ok_iff (x.trits_payload.drop size)).mp hlength)
    · have hno := hnoFault.mpr hfit
      cases hparse : mamParse undef F x.payload x.sideKey x.root x.encCurl with
      | ok p =>
        exact absurd ⟨p, wellFormed_of_ok x.trits_payload x.trits_sideKey x.trits_root
          x.trits_encCurl hparse⟩ hnone
      | error halt =>
        cases halt with
        | failed => rfl
        | fault f => exact absurd hparse (hno f)

/-- Nine zeros: the first number does not end, and where the second one starts is not set. -/
theorem not_staysInside_zeros :
    ¬ ∀ (undef : ℕ → ℤ) (F : CurlP) (x : Input), StaysInside undef F x := by
  intro h
  let x : Input := {
    payload := List.replicate 9 0, sideKey := [], root := List.replicate 243 0
    encCurl := CurlP.reset, trits_payload := trits_replicate 9, trits_sideKey := trits_nil
    trits_root := trits_replicate 243, trits_encCurl := CurlP.trits_reset
    length_root := List.length_replicate }
  have hfit := (noFault_mamParse x.trits_payload x.trits_sideKey x.trits_root
    x.trits_encCurl).mp (h (fun _ => 0) ⟨id, fun _ h => h⟩ x).noFault
  rcases hfit with hnil | ⟨_, _, hnumber, -⟩
  · exact absurd hnil (by decide)
  · exact not_number_replicate 9 hnumber

end Prototype

end Entangled
