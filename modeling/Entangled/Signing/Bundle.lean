import Entangled.Signing.Sign
import Entangled.Tangle.Validity
/-!
# Signing a bundle

`bundle_finalize` and `bundle_sign`, over addresses, hashes and signatures packed as the
build packs them, and the sponge of `bundle_validate` as the code computes it with Kerl.

`bundle_sign` walks the transactions with a pointer and keeps `curr_index` for where the next
signature goes. The two are separate: a transaction that spends from an address of no input
moves the pointer and not `curr_index`, and the inner loop moves the pointer to the last
transaction it wrote. The state of the walk keeps what was written where.
-/

namespace Entangled

open Ternary Trinary

variable {σ : Type}

/-! ## The sponge of a bundle -/

/-- The 243 trits of a packed hash. -/
def hashTrits (E : Encoding) (hash : List FlexTrit) : List ℤ :=
  (flexTritsToTrits E (List.replicate 243 0) 243 hash 243 243).1

/-- A hash of 243 trits, packed. -/
def packHash (E : Encoding) (trits : List ℤ) : List FlexTrit :=
  (flexTritsFromTrits E (List.replicate (E.numFlexTritsForTrits 243) 0) 243 trits 243 243).1

/-- A write through a pointer into a buffer. -/
def writeFrom (p : ℕ) (write : List ℤ → List ℤ) (out : List ℤ) : List ℤ :=
  out.take p ++ write (out.drop p)

/-- `absorb_essence`. -/
def absorbEssence (K : Kerl σ) (E : Encoding) (kerl : σ) (e : Essence (List FlexTrit)) : σ :=
  let trits := List.replicate 486 0
  let trits := writeFrom 0 (fun out => (flexTritsToTrits E out 243 e.address 243 243).1) trits
  let trits := writeFrom 243 (fun out => (longToTrits e.value out).1) trits
  let trits := writeFrom 324 (fun out => (flexTritsToTrits E out 81 e.obsoleteTag 81 81).1) trits
  let trits := writeFrom 405 (fun out => (longToTrits e.timestamp.toInt64 out).1) trits
  let trits := writeFrom 432 (fun out => (longToTrits (Int64.ofNat e.currentIndex) out).1) trits
  let trits := writeFrom 459 (fun out => (longToTrits (Int64.ofNat e.lastIndex) out).1) trits
  K.absorb kerl (trits.take 486)

/-- `bundle_calculate_hash`. -/
def bundleCalculateHash (K : Kerl σ) (E : Encoding) (essences : List (Essence (List FlexTrit))) :
    List FlexTrit :=
  packHash E (K.squeeze (essences.foldl (absorbEssence K E) K.init)).1

/-- `normalize_flex_hash`. -/
def normalizeFlexHash (E : Encoding) (hash : List FlexTrit) : List ℤ :=
  normalizeHash (hashTrits E hash)

/-- `normalize_flex_hash_to_trits`, into the buffer `normalizedHash`. -/
def normalizeFlexHashToTrits (E : Encoding) (hash : List FlexTrit) (normalizedHash : List ℤ) :
    List ℤ :=
  normalizeHashToTrits (hashTrits E hash) normalizedHash

/-- The trits of a signature fragment, as `validate_signatures` unpacks them. -/
def fragmentTrits (E : Encoding) (signature : List FlexTrit) : List ℤ :=
  (flexTritsToTrits E (List.replicate 6561 0) 6561 signature 6561 6561).1

/-- The sponge of `bundle_validate`. -/
def kerlSponge (K : Kerl σ) (E : Encoding) : Sponge (List FlexTrit) where
  bundleHash := bundleCalculateHash K E
  signatureAddress hash signatures :=
    packHash E (signatureAddress K (normalizeFlexHashToTrits E hash (List.replicate 243 0))
      (signatures.map (fragmentTrits E)))
  lastTrit address := Int8.ofInt (flexTritsAt E address 243 242)

/-! ## Addresses and signatures, packed -/

/-- `iota_sign_address_gen_flex_trits`. -/
def iotaSignAddressGenFlexTrits (K : Kerl σ) (E : Encoding) (seed : List FlexTrit)
    (index : UInt64) (security : ℕ) : Option (List FlexTrit) :=
  (iotaSignAddressGenTrits K (hashTrits E seed) index security).map (packHash E)

/-- `iota_sign_signature_gen_flex_trits`. -/
def iotaSignSignatureGenFlexTrits (K : Kerl σ) (E : Encoding) (seed : List FlexTrit)
    (index : UInt64) (security : ℕ) (bundleHash : List FlexTrit) : Option (List FlexTrit) :=
  let len := security * 6561
  (iotaSignSignatureGenTrits K (hashTrits E seed) index security (hashTrits E bundleHash)).map
    fun signature =>
      (flexTritsFromTrits E (List.replicate (E.numFlexTritsForTrits len) 0) len signature len len).1

/-! ## Finalizing -/

/-- `bundle_reset_indexes`. -/
def bundleResetIndexes (bundle : List (Transaction (List FlexTrit))) :
    List (Transaction (List FlexTrit)) :=
  bundle.mapIdx fun i tx => { tx with currentIndex := i, lastIndex := bundle.length - 1 }

/-- The loop of `bundle_finalize` with the tag of the first transaction as trits, for at most
`rounds` hashes. -/
def finalizeLoop (K : Kerl σ) (E : Encoding) :
    ℕ → List ℤ → List (Transaction (List FlexTrit)) → Option (List (Transaction (List FlexTrit)))
  | 0, _, _ => none
  | rounds + 1, tagTrits, bundle =>
    let hash := bundleCalculateHash K E (bundle.map (·.essence))
    if normalizedHashIsSecure (normalizeFlexHash E hash) then
      some (bundle.map fun tx => { tx with bundle := hash })
    else
      let tagTrits := addAssign tagTrits 1
      finalizeLoop K E rounds tagTrits (bundle.modifyHead fun tx =>
        { tx with obsoleteTag := (flexTritsFromTrits E tx.obsoleteTag 81 tagTrits 81 81).1 })

/-- `bundle_finalize`; nothing for a bundle that is empty or whose hash stays insecure for
`rounds` rounds. -/
def bundleFinalize (K : Kerl σ) (E : Encoding) (rounds : ℕ)
    (bundle : List (Transaction (List FlexTrit))) : Option (List (Transaction (List FlexTrit))) :=
  match bundle with
  | [] => none
  | head :: _ =>
    finalizeLoop K E rounds
      (flexTritsToTrits E (List.replicate 81 0) 81 head.obsoleteTag 81 81).1 bundle

/-! ## Signing -/

/-- `input_t`, without the balance. -/
structure Input where
  keyIndex : UInt64
  security : UInt8
  address : List FlexTrit
  deriving DecidableEq, Repr

/-- Where `bundle_sign` stands: walking on, done, returned on a signature that could not be
made, or at a write through a pointer to no transaction. -/
inductive SignOutcome
  | running
  | ok
  | commonBundleSign
  | undefinedWrite
  deriving DecidableEq, Repr

/-- The state of `bundle_sign`. The pointer `tx` is the position it points to, and `writes`
lists the fragments written so far: for which input, and into which transaction. -/
structure SignState where
  bundle : List (Transaction (List FlexTrit))
  currIndex : ℕ
  position : ℕ
  writes : List (Input × ℕ)
  outcome : SignOutcome

section Sign

variable (K : Kerl σ) (E : Encoding) (beyond seed : List FlexTrit) (inputs : List Input)

/-- The bytes that `memcpy` takes for fragment `i`; `beyond` is the memory behind the
signature. -/
def fragmentBytes (signature : List FlexTrit) (i : ℕ) : List FlexTrit :=
  ((signature ++ beyond).drop (i * E.numFlexTritsForTrits 6561)).take (E.numFlexTritsForTrits 6561)

/-- Round `i` of the loop over the security level. -/
def writeFragment (input : Input) (signature : List FlexTrit) (st : SignState) (i : ℕ) :
    SignState :=
  if st.outcome = .running then
    if st.currIndex + i < st.bundle.length then
      { st with
        bundle := st.bundle.modify (st.currIndex + i) fun tx =>
          { tx with signature := fragmentBytes E beyond signature i }
        position := st.currIndex + i
        writes := st.writes ++ [(input, st.currIndex + i)] }
    else { st with outcome := .undefinedWrite }
  else st

/-- The body of the loop over the inputs. -/
def signInput (st : SignState) (input : Input) : SignState :=
  match st.outcome, st.bundle[st.position]? with
  | .running, some tx =>
    if input.address = tx.address then
      if tx.currentIndex < st.currIndex then st
      else match iotaSignSignatureGenFlexTrits K E seed input.keyIndex input.security.toNat
          tx.bundle with
        | some signature =>
          let st := (List.range input.security.toNat).foldl
            (writeFragment E beyond input signature) st
          { st with currIndex := st.currIndex + input.security.toNat }
        | none => { st with outcome := .commonBundleSign }
    else st
  | _, _ => st

/-- The body of the loop over the transactions, and the step of its pointer. -/
def signTx (st : SignState) : SignState :=
  match st.outcome, st.bundle[st.position]? with
  | .running, some tx =>
    let st := if tx.value < 0 then inputs.foldl (signInput K E beyond seed) st
      else { st with currIndex := st.currIndex + 1 }
    if st.outcome = .running then { st with position := st.position + 1 } else st
  | .running, none => { st with outcome := .ok }
  | _, _ => st

/-- The walk of `bundle_sign` after `steps` transactions. -/
def signWalk (bundle : List (Transaction (List FlexTrit))) (steps : ℕ) : SignState :=
  (signTx K E beyond seed inputs)^[steps] ⟨bundle, 0, 0, [], .running⟩

/-- `bundle_sign` within `rounds` rounds of finalizing and `steps` steps of the walk: the
outcome and the bundle. -/
def bundleSign (rounds steps : ℕ) (bundle : List (Transaction (List FlexTrit))) :
    Option (SignOutcome × List (Transaction (List FlexTrit))) :=
  (bundleFinalize K E rounds (bundleResetIndexes bundle)).map fun finalized =>
    let st := signWalk K E beyond seed inputs finalized steps
    if st.outcome = .ok then (.ok, bundleResetIndexes st.bundle) else (st.outcome, st.bundle)

end Sign

end Entangled
