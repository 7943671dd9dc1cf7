import Entangled.Parallel.Hasher
import Entangled.Parallel.PearlDiver
import Entangled.Transaction.Codec
import Entangled.Trinary.Conversions
/-!
# Proof of work for a bundle

`pow.c`. A bundle is attached from its last index down: each transaction gets the hash of the one
before as its trunk, its times and its tag, and then a nonce with which its own hash ends in enough
zeros. The hash is one of all its trits, so a nonce that was searched for with the sponge stopped
before the last chunk has to be the one that goes into the serialized transaction
(`curlDigest_doPow`).

The transactions are found by their index and written in place, so what is said about one of them is
kept by the later steps because these look for other indexes (`powLoop_spec`).
-/

namespace Entangled

namespace Attachment

open Ternary Trinary Codec Prototype
open Parallel hiding numTritsSerializedTransaction

/-- What the library is built for, and the number of threads. -/
structure Platform where
  E : Encoding
  cvt : Cvt
  layout : Parallel.Layout
  lanes : ℕ
  procs : ℕ

/-- What a step finds: a clock, the outcome of its search and the memory it serializes to. -/
structure Attempt where
  now : UInt64
  found : Option (ℕ × ℕ)
  memory : Writer

/-- `RC_OK`, `RC_HELPERS_POW_INVALID_TX` and `RC_OOM`. -/
inductive PowRetcode
  | ok
  | invalidTx
  | oom
  deriving DecidableEq

section Functions

variable (P : Platform)

/-- `do_pow`, of no fewer trits than a chunk has. -/
def doPow (curl : CurlState) (tritsIn : List ℤ) (mwm : ℕ) (found : Option (ℕ × ℕ)) :
    Option (List ℤ) :=
  let curl := (curlP 81).absorb curl (tritsIn.take (tritsIn.length - 243))
  let curl := curl.overwrite (tritsIn.drop (tritsIn.length - 243))
  (hashcash P.cvt P.layout 81 P.lanes P.procs curl (243 - 81) 243 mwm found).map fun curl =>
    (curl.trits.drop (243 - 81)).take 81

/-- `iota_pow_flex`. -/
def iotaPowFlex (flexTritsIn : List FlexTrit) (numTrits mwm : ℕ) (found : Option (ℕ × ℕ)) :
    Option (List FlexTrit) :=
  let trits := (flexTritsToTrits P.E (List.replicate numTrits 0) numTrits flexTritsIn numTrits
    numTrits).1
  (doPow P CurlP.reset trits mwm found).map fun nonceTrits =>
    (flexTritsFromTrits P.E (List.replicate 81 0) 81 nonceTrits 81 81).1

/-- The tag of a transaction that is attached: the first flex trits of it, as many as there are for
27 trits, are those of the obsolete tag if they are null. -/
def attachmentTag (E : Encoding) (tx : IotaTransaction) : List FlexTrit :=
  let count := E.numFlexTritsForTrits 27
  if (tx.tag.take count).all (· = E.nullValue) then tx.obsoleteTag.take count ++ tx.tag.drop count
  else tx.tag

/-- A transaction before the search; nothing for the trunk to be copied from is `none`. -/
def prepare (trunk branch : List FlexTrit) (ctrunk : Option (List FlexTrit)) (now : UInt64)
    (tx : IotaTransaction) : Option IotaTransaction :=
  let size := P.E.numFlexTritsForTrits 243
  let links :=
    if tx.currentIndex = tx.lastIndex then some (trunk, branch)
    else ctrunk.map fun ctrunk => (ctrunk, trunk)
  links.map fun links => { tx with
    trunk := links.1.take size
    branch := links.2.take size
    attachmentTimestamp := now
    attachmentTimestampLower := 0
    attachmentTimestampUpper := 3812798742493
    tag := attachmentTag P.E tx }

/-- Where the search for an index stops, behind the end if there is none. -/
def placeOf (idx : ℕ) (txs : List IotaTransaction) : ℕ :=
  (txs.map fun tx => tx.currentIndex.toNat).idxOf idx

/-- The body of the loop of `iota_pow_bundle`, with what is kept as `ctrunk`. -/
def powStep (trunk branch : List FlexTrit) (mwm idx : ℕ) (attempt : Attempt)
    (ctrunk : Option (List FlexTrit)) (txs : List IotaTransaction) :
    Option (PowRetcode × List IotaTransaction × Option (List FlexTrit)) :=
  let place := placeOf idx txs
  match txs[place]? with
  | none => some (.invalidTx, txs, ctrunk)
  | some tx =>
    match prepare P trunk branch ctrunk attempt.now tx with
    | none => none
    | some tx =>
      let txflex := (transactionSerializeToFlexTrits P.E attempt.memory tx).1
      match iotaPowFlex P txflex numTritsSerializedTransaction mwm attempt.found with
      | none => some (.oom, txs.set place tx, ctrunk)
      | some nonce =>
        let tx := { tx with nonce := nonce.take (P.E.numFlexTritsForTrits 81) }
        let memory := { attempt.memory with trits := txflex }
        let txflex := (transactionSerializeToFlexTrits P.E memory tx).1
        let digest := iotaFlexDigest P.E txflex numTritsSerializedTransaction
        some (.ok, txs.set place tx, if idx = 0 then ctrunk else some digest)

/-- The loop of `iota_pow_bundle`. -/
def powLoop (trunk branch : List FlexTrit) (mwm : ℕ) (attempts : ℕ → Attempt) :
    ℕ → Option (List FlexTrit) → List IotaTransaction → Option (PowRetcode × List IotaTransaction)
  | 0, ctrunk, txs =>
    (powStep P trunk branch mwm 0 (attempts 0) ctrunk txs).map fun r => (r.1, r.2.1)
  | idx + 1, ctrunk, txs =>
    match powStep P trunk branch mwm (idx + 1) (attempts (idx + 1)) ctrunk txs with
    | none => none
    | some (.ok, txs, ctrunk) => powLoop trunk branch mwm attempts idx ctrunk txs
    | some (rc, txs, _) => some (rc, txs)

/-- `iota_pow_bundle`. -/
def iotaPowBundle (bundle : List IotaTransaction) (trunk branch : List FlexTrit) (mwm : ℕ)
    (attempts : ℕ → Attempt) : Option (PowRetcode × List IotaTransaction) :=
  match bundle with
  | [] => some (.ok, [])
  | tx :: _ => powLoop P trunk branch mwm attempts tx.lastIndex.toNat none bundle

end Functions

/-! ## The nonce -/

section Nonce

variable {P : Platform} {F : CurlP} {s : CurlState} {l chunk mid : List ℤ} {mwm : ℕ}
  {found : Option (ℕ × ℕ)}

theorem curlState_eq {s' : CurlState} (h : s.trits = s'.trits) : s = s' := by
  rcases s with ⟨trits, _⟩
  rcases s' with ⟨trits', _⟩
  obtain rfl : trits = trits' := h
  rfl

theorem overwrite_trits (h : l.length ≤ 243) :
    (s.overwrite l).trits = l ++ s.trits.drop l.length := by
  show blit s.trits 0 (l.take 243) = _
  rw [List.take_of_length_le h, blit, List.take_zero, List.nil_append, Nat.zero_add]

theorem absorb_nil : F.absorb s [] = s := by rw [CurlP.absorb, dif_pos rfl]

/-- Full chunks are absorbed first. -/
theorem absorb_append (hl : l.length % 243 = 0) :
    F.absorb s (l ++ chunk) = F.absorb (F.absorb s l) chunk := by
  induction hn : l.length using Nat.strong_induction_on generalizing l s with
  | _ n ih =>
    by_cases hnil : l = []
    · rw [hnil, List.nil_append, absorb_nil]
    · have hpos := List.length_pos_iff.mpr hnil
      have hne : l ++ chunk ≠ [] := fun h => hnil (List.append_eq_nil_iff.mp h).1
      have hover : s.overwrite (l ++ chunk) = s.overwrite l := by
        refine curlState_eq ?_
        show blit _ _ _ = blit _ _ _
        rw [List.take_append_of_le_length (by omega)]
      have hdrop : (l.drop 243).length = l.length - 243 := List.length_drop
      rw [CurlP.absorb, dif_neg hne, hover, List.drop_append_of_le_length (by omega),
        ih _ (by omega) (by omega) rfl]
      congr 1
      conv_rhs => rw [CurlP.absorb, dif_neg hnil]

/-- The last chunk is put into the state, which is transformed. -/
theorem squeeze_absorb_chunk (hl : l.length % 243 = 0) (hchunk : chunk.length = 243) :
    (F.squeeze (F.absorb s (l ++ chunk)) 243).1 =
      (F.transform ((F.absorb s l).overwrite chunk)).trits.take 243 := by
  have hne : chunk ≠ [] := List.length_pos_iff.mp (by omega)
  have hdrop : chunk.drop 243 = [] := List.drop_eq_nil_of_le hchunk.le
  rw [absorb_append hl, CurlP.absorb, dif_neg hne, hdrop, CurlP.absorb, dif_pos rfl,
    squeeze_of_pos (by decide), Nat.sub_self, Parallel.squeeze_zero, List.append_nil, Nat.min_self]

/-- Trits put behind others into the state. -/
theorem putTrits_overwrite {nonce old : List ℤ} (hmid : mid.length = 162) (hold : old.length = 81)
    (hnonce : nonce.length = 81) :
    putTrits (s.overwrite (mid ++ old)) 162 nonce = s.overwrite (mid ++ nonce) := by
  have hfit : ∀ {us : List ℤ}, us.length = 81 → (mid ++ us).length = 243 := by
    intro us hus
    rw [List.length_append]
    omega
  refine curlState_eq ?_
  rw [putTrits, dif_pos (by omega)]
  dsimp only
  rw [overwrite_trits (hfit hold).le, overwrite_trits (hfit hnonce).le, blit, List.append_assoc mid,
    List.take_left' hmid, hfit hold, hfit hnonce, List.drop_append, hmid, List.append_assoc,
    List.drop_of_length_le (by omega), List.nil_append, List.drop_append, hold, hnonce,
    List.drop_of_length_le (by omega), List.nil_append, Nat.sub_self, List.drop_zero,
    List.append_assoc]

/-- **The nonce that is found** goes with the trits before it: with all of them the digest ends in
zeros. -/
theorem curlDigest_doPow {nonce old : List ℤ} (hl : l.length % 243 = 0) (hlt : Trits l)
    (hmid : mid.length = 162) (hmt : Trits mid) (hold : old.length = 81) (hot : Trits old)
    (hmwm : mwm ≤ 243) (h : doPow P CurlP.reset (l ++ (mid ++ old)) mwm found = some nonce) :
    Trits nonce ∧ nonce.length = 81 ∧
      ∀ k < mwm, (curlDigest (l ++ (mid ++ nonce))).getD (243 - mwm + k) 0 = 0 := by
  have hchunk : (mid ++ old).length = 243 := by
    rw [List.length_append]
    omega
  have hcut : (l ++ (mid ++ old)).length - 243 = l.length := by
    rw [List.length_append, hchunk, Nat.add_sub_cancel]
  unfold doPow at h
  dsimp only at h
  rw [hcut, List.take_left, List.drop_left] at h
  obtain ⟨ctx, hcash, rfl⟩ := Option.map_eq_some_iff.mp h
  have hstate : Trits (((curlP 81).absorb CurlP.reset l).overwrite (mid ++ old)).trits :=
    CurlP.trits_overwrite (CurlP.trits_absorb CurlP.trits_reset hlt) (trits_append.mpr ⟨hmt, hot⟩)
  obtain ⟨nonce, htrits, hlen, rfl, -, hzeros⟩ :=
    hashcash_spec (by decide) hstate (by decide) (by decide) hmwm hcash
  have hput := putTrits_overwrite (s := (curlP 81).absorb CurlP.reset l) hmid hold hlen
  rw [hput] at hzeros ⊢
  have hnew : (mid ++ nonce).length = 243 := by
    rw [List.length_append]
    omega
  have hback : ((((curlP 81).absorb CurlP.reset l).overwrite (mid ++ nonce)).trits.drop 162).take
      81 = nonce := by
    rw [overwrite_trits hnew.le, List.append_assoc, List.drop_left' hmid, List.take_left' hlen]
  rw [hback]
  refine ⟨htrits, hlen, fun k hk => ?_⟩
  rw [curlDigest, squeeze_absorb_chunk hl hnew, List.getD_eq_getElem?_getD,
    List.getElem?_take_of_lt (by omega), ← List.getD_eq_getElem?_getD]
  exact hzeros k hk

end Nonce

/-! ## A transaction -/

section Transaction

variable {P : Platform} {E : Encoding} {tx tx' : IotaTransaction} {mwm idx : ℕ}
  {trunk branch : List FlexTrit} {ctrunk : Option (List FlexTrit)}

/-- All that is serialized before the nonce depends on the other fields. -/
theorem exists_wire (h : tx.Packed E) :
    ∃ pre, Trits pre ∧ pre.length = 7938 ∧ ∀ nonce, Trits nonce → nonce.length = 81 →
      ∀ w : Writer, w.Sized E →
        (transactionSerializeToFlexTrits E w { tx with nonce := pack E nonce }).1 =
          pack E (pre ++ nonce) := by
  obtain ⟨sig, t₁, l₁, e₁⟩ := h.signatureOrMessage
  obtain ⟨addr, t₂, l₂, e₂⟩ := h.address
  obtain ⟨otag, t₃, l₃, e₃⟩ := h.obsoleteTag
  obtain ⟨bundle, t₄, l₄, e₄⟩ := h.bundle
  obtain ⟨trunk, t₅, l₅, e₅⟩ := h.trunk
  obtain ⟨branch, t₆, l₆, e₆⟩ := h.branch
  obtain ⟨tag, t₇, l₇, e₇⟩ := h.tag
  let pre := [] ++ sig ++ addr ++ digits 81 tx.value.toInt ++ otag ++
    digits 27 tx.timestamp.toInt64.toInt ++ digits 27 tx.currentIndex.toInt64.toInt ++
    digits 27 tx.lastIndex.toInt64.toInt ++ bundle ++ trunk ++ branch ++ tag ++
    digits 27 tx.attachmentTimestamp.toInt64.toInt ++
    digits 27 tx.attachmentTimestampLower.toInt64.toInt ++
    digits 27 tx.attachmentTimestampUpper.toInt64.toInt
  have hwrote : ∀ nonce, Trits nonce → nonce.length = 81 → ∀ w : Writer, w.Sized E →
      Trits pre ∧ pre.length = 7938 ∧
        (transactionSerializeToFlexTrits E w { tx with nonce := pack E nonce }).1 =
          pack E (pre ++ nonce) := by
    intro nonce t₈ l₈ w hw
    have w₁ := hw.wrote_nil.writeWhole t₁ l₁ (by decide) (by decide)
    have w₂ := w₁.writeWhole t₂ l₂ (by decide) (by decide)
    have w₃ := w₂.writeLong (v := tx.value) (n := 81) (by decide) (by decide) (by decide)
    have w₄ := w₃.writeWhole t₃ l₃ (by decide) (by decide)
    have w₅ := w₄.writeLong (v := tx.timestamp.toInt64) (n := 27) (by decide) (by decide)
      (by decide)
    have w₆ := w₅.writeLong (v := tx.currentIndex.toInt64) (n := 27) (by decide) (by decide)
      (by decide)
    have w₇ := w₆.writeLong (v := tx.lastIndex.toInt64) (n := 27) (by decide) (by decide)
      (by decide)
    have w₈ := w₇.writeWhole t₄ l₄ (by decide) (by decide)
    have w₉ := w₈.writeWhole t₅ l₅ (by decide) (by decide)
    have v₁ := w₉.writeWhole t₆ l₆ (by decide) (by decide)
    have v₂ := v₁.writeWhole t₇ l₇ (by decide) (by decide)
    have v₃ := v₂.writeLong (v := tx.attachmentTimestamp.toInt64) (n := 27) (by decide)
      (by decide) (by decide)
    have v₄ := v₃.writeLong (v := tx.attachmentTimestampLower.toInt64) (n := 27) (by decide)
      (by decide) (by decide)
    have v₅ := v₄.writeLong (v := tx.attachmentTimestampUpper.toInt64) (n := 27) (by decide)
      (by decide) (by decide)
    have hwritten := (v₅.writeWhole t₈ l₈ (by decide) (by decide)).written
    rw [Nat.sub_self, List.replicate_zero, List.append_nil] at hwritten
    refine ⟨v₅.trits, v₅.length, ?_⟩
    rw [← hwritten]
    simp only [transactionSerializeToFlexTrits, e₁, e₂, e₃, e₄, e₅, e₆, e₇]
  obtain ⟨htrits, hlength, -⟩ := hwrote (List.replicate 81 0) (trits_replicate 81)
    List.length_replicate ⟨List.replicate _ 0, 0, List.replicate _ 0⟩
    ⟨List.length_replicate, List.length_replicate⟩
  exact ⟨pre, htrits, hlength, fun nonce hnonce hlen w hw => (hwrote nonce hnonce hlen w hw).2.2⟩

/-- What comes out of `iota_pow_flex` for a packed transaction. -/
theorem iotaPowFlex_spec {pre old : List ℤ} {flex : List FlexTrit} {found : Option (ℕ × ℕ)}
    (hpre : Trits pre) (hlen : pre.length = 7938) (hold : Trits old) (holdlen : old.length = 81)
    (hmwm : mwm ≤ 243)
    (h : iotaPowFlex P (pack P.E (pre ++ old)) numTritsSerializedTransaction mwm found =
      some flex) :
    ∃ nonce, Trits nonce ∧ nonce.length = 81 ∧
      flex.take (P.E.numFlexTritsForTrits 81) = pack P.E nonce ∧
      ∀ k < mwm, (curlDigest (pre ++ nonce)).getD (243 - mwm + k) 0 = 0 := by
  have hwhole : (pre ++ old).length = 8019 := by
    rw [List.length_append]
    omega
  have htrits : (flexTritsToTrits P.E (List.replicate numTritsSerializedTransaction 0)
      numTritsSerializedTransaction (pack P.E (pre ++ old)) numTritsSerializedTransaction
      numTritsSerializedTransaction).1 = pre ++ old := by
    have hto := flexTritsToTrits_pack (E := P.E) (List.replicate 8019 0) 8019
      (trits_append.mpr ⟨hpre, hold⟩) (List.prefix_refl _) (by omega) (fun _ => by omega)
      hwhole.le (by rw [List.length_replicate]; omega)
    rw [blit_full (by rw [hwhole, List.length_replicate]), hwhole] at hto
    exact hto
  unfold iotaPowFlex at h
  dsimp only at h
  rw [htrits] at h
  obtain ⟨nonce, hpow, rfl⟩ := Option.map_eq_some_iff.mp h
  have hsplit : pre ++ old = pre.take 7776 ++ (pre.drop 7776 ++ old) := by
    rw [← List.append_assoc, List.take_append_drop]
  rw [hsplit] at hpow
  have hfront : (pre.take 7776).length = 7776 := by
    rw [List.length_take]
    omega
  have hmid : (pre.drop 7776).length = 162 := by
    rw [List.length_drop]
    omega
  obtain ⟨hnonce, hnoncelen, hzeros⟩ := curlDigest_doPow (by rw [hfront]) (hpre.take 7776) hmid
    (hpre.drop 7776) holdlen hold hmwm hpow
  rw [← List.append_assoc, List.take_append_drop] at hzeros
  have hroom : P.E.numFlexTritsForTrits 81 ≤ 81 := by cases P.E <;> decide
  have hfrom := flexTritsFromTrits_pack (E := P.E) (List.replicate 81 0) nonce 81 hnonce
    List.take_length (by omega) hnoncelen.le (by rw [hnoncelen, List.length_replicate]; exact hroom)
  rw [hnoncelen] at hfrom
  refine ⟨nonce, hnonce, hnoncelen, ?_, hzeros⟩
  rw [hfrom, blit, List.take_zero, List.nil_append,
    List.take_left' (by rw [length_pack, hnoncelen])]

/-- Whole flex trits of one array before those of another. -/
theorem pack_splice {us vs : List ℤ} {count : ℕ} (h : E.numTritsPerFlexTrit * count ≤ us.length) :
    (pack E us).take count ++ (pack E vs).drop count =
      pack E (us.take (E.numTritsPerFlexTrit * count) ++
        vs.drop (E.numTritsPerFlexTrit * count)) := by
  have hfront : (us.take (E.numTritsPerFlexTrit * count)).length =
      E.numTritsPerFlexTrit * count := by
    rw [List.length_take]
    omega
  have hdrop : ∀ ts, (pack E ts).drop count = pack E (ts.drop (E.numTritsPerFlexTrit * count)) := by
    intro ts
    rw [pack, pack, Packing.pack_drop, packing_width]
  rw [take_pack_whole (List.prefix_refl _) h, hdrop,
    ← List.take_append_drop count (pack E (us.take _ ++ _)),
    take_pack_whole (List.prefix_refl _) (by rw [List.length_append]; omega), hdrop,
    List.take_left' hfront, List.drop_left' hfront]

theorem isPacked_attachmentTag (h : tx.Packed E) : IsPacked E 81 (attachmentTag E tx) := by
  obtain ⟨otag, hotag, holen, hoeq⟩ := h.obsoleteTag
  obtain ⟨tag, htag, hlen, heq⟩ := h.tag
  unfold attachmentTag
  dsimp only
  split
  · have hwide : E.numTritsPerFlexTrit * E.numFlexTritsForTrits 27 ≤ 81 := by cases E <;> decide
    refine ⟨otag.take (E.numTritsPerFlexTrit * E.numFlexTritsForTrits 27) ++
      tag.drop (E.numTritsPerFlexTrit * E.numFlexTritsForTrits 27),
      trits_append.mpr ⟨hotag.take _, htag.drop _⟩, ?_, ?_⟩
    · rw [List.length_append, List.length_take, List.length_drop]
      omega
    · rw [hoeq, heq, pack_splice (by omega)]
  · exact h.tag

/-- A transaction and what it is attached as, where the trits of the one it is attached to are
`above`: the times and the tag are set, the trunk and the branch as its index asks for, and the hash
of all that is serialized ends in zeros. -/
structure Attached (E : Encoding) (mwm : ℕ) (trunk branch : List FlexTrit)
    (above : Option (List ℤ)) (now : UInt64) (tx tx' : IotaTransaction) (ts : List ℤ) : Prop where
  changed : tx' = { tx with
    trunk := tx'.trunk, branch := tx'.branch, attachmentTimestamp := now,
    attachmentTimestampLower := 0, attachmentTimestampUpper := 3812798742493,
    tag := attachmentTag E tx, nonce := tx'.nonce }
  linked : if tx.currentIndex = tx.lastIndex then tx'.trunk = trunk ∧ tx'.branch = branch
    else (∃ us ∈ above, tx'.trunk = pack E (curlDigest us)) ∧ tx'.branch = trunk
  packed : tx'.Packed E
  trits : Trits ts
  length : ts.length = 8019
  serialized : ∀ w : Writer, w.Sized E →
    (transactionSerializeToFlexTrits E w tx').1 = pack E ts
  weight : ∀ k < mwm, (curlDigest ts).getD (243 - mwm + k) 0 = 0

theorem isPacked_curlDigest {ts : List ℤ} (hts : Trits ts) :
    IsPacked E 243 (pack E (curlDigest ts)) := by
  refine ⟨curlDigest ts, ?_, (curlP 81).length_squeeze _ _, rfl⟩
  rw [curlDigest]
  exact trits_squeeze (CurlP.trits_absorb CurlP.trits_reset hts) 243

theorem take_of_isPacked {n : ℕ} {field : List FlexTrit} (h : IsPacked E n field) :
    field.take (E.numFlexTritsForTrits n) = field := by
  obtain ⟨ts, -, hlen, rfl⟩ := h
  exact List.take_of_length_le (by rw [length_pack, hlen])

/-- What is set before the search. -/
theorem prepare_spec {above : Option (List ℤ)} {now : UInt64} (htx : tx.Packed P.E)
    (htrunk : IsPacked P.E 243 trunk) (hbranch : IsPacked P.E 243 branch)
    (habove : ctrunk.map (·.take (P.E.numFlexTritsForTrits 243)) =
      above.map fun us => pack P.E (curlDigest us)) (htrits : ∀ us ∈ above, Trits us)
    (h : prepare P trunk branch ctrunk now tx = some tx') :
    tx'.Packed P.E ∧
      tx' = { tx with
        trunk := tx'.trunk, branch := tx'.branch, attachmentTimestamp := now,
        attachmentTimestampLower := 0, attachmentTimestampUpper := 3812798742493,
        tag := attachmentTag P.E tx } ∧
      if tx.currentIndex = tx.lastIndex then tx'.trunk = trunk ∧ tx'.branch = branch
      else (∃ us ∈ above, tx'.trunk = pack P.E (curlDigest us)) ∧ tx'.branch = trunk := by
  have hpacked : ∀ {t b : List FlexTrit}, IsPacked P.E 243 t → IsPacked P.E 243 b →
      IotaTransaction.Packed P.E { tx with
        trunk := t, branch := b, attachmentTimestamp := now,
        attachmentTimestampLower := 0, attachmentTimestampUpper := 3812798742493,
        tag := attachmentTag P.E tx } := fun ht hb =>
    ⟨htx.signatureOrMessage, htx.address, htx.obsoleteTag, htx.bundle, ht, hb,
      isPacked_attachmentTag htx, htx.nonce⟩
  unfold prepare at h
  obtain ⟨⟨t, b⟩, hlink, rfl⟩ := Option.map_eq_some_iff.mp h
  by_cases hlast : tx.currentIndex = tx.lastIndex
  · rw [if_pos hlast, Option.some.injEq, Prod.mk.injEq] at hlink
    obtain ⟨rfl, rfl⟩ := hlink
    rw [take_of_isPacked htrunk, take_of_isPacked hbranch, if_pos hlast]
    exact ⟨hpacked htrunk hbranch, rfl, rfl, rfl⟩
  · rw [if_neg hlast] at hlink
    obtain ⟨c, rfl, hc⟩ := Option.map_eq_some_iff.mp hlink
    rw [Prod.mk.injEq] at hc
    obtain ⟨rfl, rfl⟩ := hc
    obtain ⟨us, rfl, hus⟩ := Option.map_eq_some_iff.mp habove.symm
    dsimp only at hus ⊢
    rw [if_neg hlast, take_of_isPacked htrunk, ← hus]
    exact ⟨hpacked (isPacked_curlDigest (htrits us rfl)) htrunk, rfl, ⟨us, rfl, rfl⟩, rfl⟩

end Transaction

/-! ## The bundle -/

section Bundle

variable {P : Platform} {tx tx' : IotaTransaction} {mwm idx : ℕ} {trunk branch : List FlexTrit}
  {ctrunk : Option (List FlexTrit)} {txs txs' : List IotaTransaction}

theorem currentIndex_of_placeOf (h : txs[placeOf idx txs]? = some tx) :
    tx.currentIndex.toNat = idx := by
  have hmap : (txs.map fun tx => tx.currentIndex.toNat)[placeOf idx txs]? =
      some tx.currentIndex.toNat := by rw [List.getElem?_map, h, Option.map_some]
  obtain ⟨hlt, heq⟩ := List.getElem?_eq_some_iff.mp hmap
  rw [← heq]
  exact List.getElem_idxOf hlt

theorem placeOf_congr
    (h : (txs'.map fun tx => tx.currentIndex.toNat) = txs.map fun tx => tx.currentIndex.toNat) :
    placeOf idx txs' = placeOf idx txs := by rw [placeOf, placeOf, h]

theorem map_currentIndex_set {place : ℕ} (htx : txs[place]? = some tx)
    (h : tx'.currentIndex = tx.currentIndex) :
    ((txs.set place tx').map fun tx => tx.currentIndex.toNat) =
      txs.map fun tx => tx.currentIndex.toNat := by
  obtain ⟨hlt, rfl⟩ := List.getElem?_eq_some_iff.mp htx
  have hmap : place < (txs.map fun tx => tx.currentIndex.toNat).length := by rwa [List.length_map]
  have hold : tx'.currentIndex.toNat = (txs.map fun tx => tx.currentIndex.toNat)[place] := by
    rw [List.getElem_map, h]
  rw [List.map_set, hold, List.set_getElem_self]

/-- **A step** changes the first transaction of its index. -/
theorem powStep_spec {above : Option (List ℤ)} {attempt : Attempt}
    {ctrunk' : Option (List FlexTrit)}
    (hpacked : ∀ tx ∈ txs, tx.Packed P.E) (htrunk : IsPacked P.E 243 trunk)
    (hbranch : IsPacked P.E 243 branch) (hmwm : mwm ≤ 243) (hmemory : attempt.memory.Sized P.E)
    (habove : ctrunk.map (·.take (P.E.numFlexTritsForTrits 243)) =
      above.map fun us => pack P.E (curlDigest us)) (htrits : ∀ us ∈ above, Trits us)
    (h : powStep P trunk branch mwm idx attempt ctrunk txs = some (.ok, txs', ctrunk')) :
    ∃ tx tx' ts, txs[placeOf idx txs]? = some tx ∧ txs' = txs.set (placeOf idx txs) tx' ∧
      Attached P.E mwm trunk branch above attempt.now tx tx' ts ∧
      (idx ≠ 0 → ctrunk'.map (·.take (P.E.numFlexTritsForTrits 243)) =
        some (pack P.E (curlDigest ts))) := by
  unfold powStep at h
  dsimp only at h
  split at h
  · cases h
  next tx htx =>
  split at h
  · cases h
  next ready hready =>
  split at h
  · cases h
  next flex hflex =>
  simp only [Option.some.injEq, Prod.mk.injEq, true_and] at h
  obtain ⟨rfl, rfl⟩ := h
  obtain ⟨hfields, hchanged, hlinked⟩ := prepare_spec (hpacked tx (List.mem_of_getElem? htx)) htrunk
    hbranch habove htrits hready
  obtain ⟨pre, hpre, hlen, hwire⟩ := exists_wire hfields
  obtain ⟨old, hold, holdlen, hnonce⟩ := hfields.nonce
  have hserialized := hwire old hold holdlen attempt.memory hmemory
  rw [← hnonce] at hserialized
  rw [hserialized] at hflex
  obtain ⟨nonce, hnonce', hnoncelen, htake, hweight⟩ :=
    iotaPowFlex_spec hpre hlen hold holdlen hmwm hflex
  have hts : Trits (pre ++ nonce) := trits_append.mpr ⟨hpre, hnonce'⟩
  have htslen : (pre ++ nonce).length = 8019 := by
    rw [List.length_append]
    omega
  refine ⟨tx, { ready with nonce := pack P.E nonce }, pre ++ nonce, htx, by rw [htake],
    ⟨?_, hlinked, ?_, hts, htslen, hwire nonce hnonce' hnoncelen, hweight⟩, ?_⟩
  · rw [hchanged]
  · exact ⟨hfields.signatureOrMessage, hfields.address, hfields.obsoleteTag, hfields.bundle,
      hfields.trunk, hfields.branch, hfields.tag, nonce, hnonce', hnoncelen, rfl⟩
  · intro hidx
    have hto := flexTritsToTrits_pack (E := P.E) (List.replicate 8019 0) 8019 hts
      (List.prefix_refl _) (by omega) (fun _ => by omega) htslen.le
      (by rw [List.length_replicate]; omega)
    rw [blit_full (by rw [htslen, List.length_replicate]), htslen] at hto
    have hsized : Writer.Sized P.E { attempt.memory with trits := pack P.E (pre ++ old) } :=
      ⟨by rw [length_pack, List.length_append, hlen, holdlen], hmemory.partialTrits⟩
    rw [if_neg hidx, Option.map_some, htake, hserialized, hwire nonce hnonce' hnoncelen _ hsized]
    exact congrArg some (iotaFlexDigest_eq hto hts)

/-- **All steps**: every index up to the one a loop begins with has its transaction, and it is
attached to that of the next index. -/
theorem powLoop_spec {above : Option (List ℤ)} {attempts : ℕ → Attempt}
    (hpacked : ∀ tx ∈ txs, tx.Packed P.E) (htrunk : IsPacked P.E 243 trunk)
    (hbranch : IsPacked P.E 243 branch) (hmwm : mwm ≤ 243)
    (hmemory : ∀ j, (attempts j).memory.Sized P.E)
    (habove : ctrunk.map (·.take (P.E.numFlexTritsForTrits 243)) =
      above.map fun us => pack P.E (curlDigest us)) (htrits : ∀ us ∈ above, Trits us)
    (h : powLoop P trunk branch mwm attempts idx ctrunk txs = some (.ok, txs')) :
    ∃ wire : ℕ → List ℤ,
      (∀ j ≤ idx, ∃ tx tx', txs[placeOf j txs]? = some tx ∧ txs'[placeOf j txs]? = some tx' ∧
        Attached P.E mwm trunk branch (if j = idx then above else some (wire (j + 1)))
          (attempts j).now tx tx' (wire j)) ∧
      txs'.length = txs.length ∧
      ∀ q, (∀ j ≤ idx, q ≠ placeOf j txs) → txs'[q]? = txs[q]? := by
  induction idx generalizing ctrunk above txs with
  | zero =>
    obtain ⟨⟨rc, txs₁, ctrunk'⟩, hstep, hend⟩ := Option.map_eq_some_iff.mp h
    obtain ⟨rfl, rfl⟩ := Prod.mk.inj hend
    obtain ⟨tx, tx', ts, htx, hset, hattached, -⟩ := powStep_spec hpacked htrunk hbranch hmwm
      (hmemory 0) habove htrits hstep
    obtain ⟨hlt, -⟩ := List.getElem?_eq_some_iff.mp htx
    refine ⟨fun _ => ts, fun j hj => ?_, by rw [hset, List.length_set], fun q hq => ?_⟩
    · obtain rfl : j = 0 := by omega
      exact ⟨tx, tx', htx, by rw [hset, List.getElem?_set_self hlt], by rwa [if_pos rfl]⟩
    · rw [hset, List.getElem?_set_ne (hq 0 le_rfl).symm]
  | succ idx ih =>
    rw [powLoop] at h
    split at h
    · cases h
    · next txs₁ ctrunk₁ hstep =>
      obtain ⟨tx, tx', ts, htx, rfl, hattached, hdigest⟩ := powStep_spec hpacked htrunk hbranch
        hmwm (hmemory (idx + 1)) habove htrits hstep
      have hindex : tx'.currentIndex = tx.currentIndex := by rw [hattached.changed]
      have hsame := map_currentIndex_set htx hindex
      obtain ⟨hlt, -⟩ := List.getElem?_eq_some_iff.mp htx
      have hpacked' : ∀ t ∈ txs.set (placeOf (idx + 1) txs) tx', t.Packed P.E := by
        intro t ht
        rcases List.mem_or_eq_of_mem_set ht with hmem | rfl
        · exact hpacked t hmem
        · exact hattached.packed
      have habove' : ctrunk₁.map (·.take (P.E.numFlexTritsForTrits 243)) =
          (some ts).map fun us => pack P.E (curlDigest us) := hdigest (Nat.succ_ne_zero idx)
      obtain ⟨wire, hwire, hlength, hframe⟩ := ih hpacked' habove'
        (fun us hus => Option.some.inj hus ▸ hattached.trits) h
      -- the later steps are at other places
      have hother : ∀ j ≤ idx, placeOf (idx + 1) txs ≠ placeOf j txs := by
        intro j hj heq
        obtain ⟨t, -, ht, -⟩ := hwire j hj
        have hj' := currentIndex_of_placeOf ht
        rw [placeOf_congr hsame, ← heq, List.getElem?_set_self hlt, Option.some.injEq] at ht
        rw [← ht, hindex, currentIndex_of_placeOf htx] at hj'
        omega
      simp only [placeOf_congr hsame] at hwire hframe
      refine ⟨Function.update wire (idx + 1) ts, fun j hj => ?_, by rw [hlength, List.length_set],
        fun q hq => ?_⟩
      · rcases Nat.lt_or_ge idx j with hgt | hle
        · obtain rfl : j = idx + 1 := by omega
          refine ⟨tx, tx', htx, ?_, ?_⟩
          · rw [hframe _ hother, List.getElem?_set_self hlt]
          · rwa [if_pos rfl, Function.update_self]
        · obtain ⟨t, t', ht, ht', hlinked⟩ := hwire j hle
          rw [List.getElem?_set_ne (hother j hle)] at ht
          refine ⟨t, t', ht, ht', ?_⟩
          have hwire' : Function.update wire (idx + 1) ts j = wire j :=
            Function.update_of_ne (by omega) _ _
          rw [if_neg (by omega), hwire']
          by_cases hj' : j = idx
          · subst hj'
            rw [if_pos rfl] at hlinked
            rwa [Function.update_self]
          · rw [if_neg hj'] at hlinked
            rwa [Function.update_of_ne (by omega)]
      · rw [hframe q fun j hj => hq j (by omega), List.getElem?_set_ne (hq (idx + 1) le_rfl).symm]
    · next hrc _ =>
      simp only [Option.some.injEq, Prod.mk.injEq] at h
      exact absurd h.1 hrc

/-- **A bundle that is attached**, whatever the threads find, the clock shows and the memory holds:
every index up to the last one has a first transaction, which gets its times and its tag, the trunk
and branch of the call if its index is the last of its own, and else the hash of the transaction of
the next index and the trunk of the call; its hash ends in as many zeros as were asked for. The
others stay as they are. -/
theorem iotaPowBundle_attached {bundle : List IotaTransaction} {first : IotaTransaction}
    {attempts : ℕ → Attempt} (hfirst : bundle.head? = some first)
    (hpacked : ∀ tx ∈ bundle, tx.Packed P.E) (htrunk : IsPacked P.E 243 trunk)
    (hbranch : IsPacked P.E 243 branch) (hmwm : mwm ≤ 243)
    (hmemory : ∀ j, (attempts j).memory.Sized P.E)
    (h : iotaPowBundle P bundle trunk branch mwm attempts = some (.ok, txs')) :
    ∃ wire : ℕ → List ℤ,
      (∀ j ≤ first.lastIndex.toNat, ∃ tx tx', bundle[placeOf j bundle]? = some tx ∧
        tx.currentIndex.toNat = j ∧ txs'[placeOf j bundle]? = some tx' ∧
        Attached P.E mwm trunk branch
          (if j = first.lastIndex.toNat then none else some (wire (j + 1)))
          (attempts j).now tx tx' (wire j)) ∧
      txs'.length = bundle.length ∧
      ∀ q, (∀ j ≤ first.lastIndex.toNat, q ≠ placeOf j bundle) → txs'[q]? = bundle[q]? := by
  rcases bundle with _ | ⟨tx, rest⟩
  · exact absurd hfirst (Option.some_ne_none first).symm
  · obtain rfl := Option.some.inj hfirst
    have habove : (none : Option (List FlexTrit)).map (·.take (P.E.numFlexTritsForTrits 243)) =
        none.map fun us => pack P.E (curlDigest us) := rfl
    obtain ⟨wire, hwire, hlength, hframe⟩ := powLoop_spec hpacked htrunk hbranch hmwm hmemory habove
      (fun us hus => absurd hus (Option.not_mem_none us)) h
    refine ⟨wire, fun j hj => ?_, hlength, hframe⟩
    obtain ⟨t, t', ht, ht', hattached⟩ := hwire j hj
    exact ⟨t, t', ht, currentIndex_of_placeOf ht, ht', hattached⟩

/-- A step whose search asks for no zeros. -/
theorem powStep_zero (trunk branch : List FlexTrit) (ctrunk : Option (List FlexTrit))
    {attempt : Attempt} (hlanes : 0 < P.lanes)
    (hprocs : 0 < P.procs) (hfound : attempt.found = some (0, 0))
    (htx : txs[placeOf idx txs]? = some tx)
    (hlinks : tx.currentIndex = tx.lastIndex ∨ ctrunk.isSome) :
    ∃ tx' ctrunk', tx'.currentIndex = tx.currentIndex ∧ (idx ≠ 0 → ctrunk'.isSome) ∧
      powStep P trunk branch 0 idx attempt ctrunk txs =
        some (.ok, txs.set (placeOf idx txs) tx', ctrunk') := by
  have hready : ∃ ready, prepare P trunk branch ctrunk attempt.now tx = some ready ∧
      ready.currentIndex = tx.currentIndex := by
    unfold prepare
    by_cases hlast : tx.currentIndex = tx.lastIndex
    · rw [if_pos hlast]
      exact ⟨_, rfl, rfl⟩
    · obtain ⟨c, rfl⟩ := Option.isSome_iff_exists.mp (hlinks.resolve_left hlast)
      rw [if_neg hlast]
      exact ⟨_, rfl, rfl⟩
  have hpow : ∀ flex, ∃ nonce,
      iotaPowFlex P flex numTritsSerializedTransaction 0 attempt.found = some nonce := by
    intro flex
    unfold iotaPowFlex doPow
    rw [hfound]
    dsimp only
    generalize CurlState.overwrite _ _ = curl
    have hcash : ∃ ctx, hashcash P.cvt P.layout 81 P.lanes P.procs curl (243 - 81) 243 0
        (some (0, 0)) = some ctx := hashcash_zero hlanes hprocs
    obtain ⟨ctx, hctx⟩ := hcash
    rw [hctx]
    exact ⟨_, rfl⟩
  obtain ⟨ready, hprepared, hindex⟩ := hready
  obtain ⟨nonce, hnonce⟩ := hpow (transactionSerializeToFlexTrits P.E attempt.memory ready).1
  unfold powStep
  simp only [htx, hprepared, hnonce]
  refine ⟨{ ready with nonce := nonce.take _ }, _, hindex, fun hidx => ?_, rfl⟩
  rw [if_neg hidx, Option.isSome_some]

end Bundle

/-! ## A bundle of two -/

/-- Two transactions, the last one first. -/
def pair : List IotaTransaction :=
  [{ transactionReset .five with currentIndex := 1, lastIndex := 1 },
    { transactionReset .five with lastIndex := 1 }]

/-- Five trits to a byte, one thread. -/
def platform : Platform := ⟨.five, .andn, .short, 64, 1⟩

/-- Every search ends at once. -/
def attempt : Attempt :=
  ⟨0, some (0, 0), ⟨List.replicate (Encoding.five.numFlexTritsForTrits 8019) 0, 0,
    List.replicate (Encoding.five.numFlexTritsForTrits 81) 0⟩⟩

/-- A field of nulls. -/
theorem isPacked_null (E : Encoding) (n : ℕ) :
    IsPacked E n (List.replicate (E.numFlexTritsForTrits n) E.nullValue) :=
  ⟨List.replicate n 0, trits_replicate n, List.length_replicate, replicate_null E n⟩

theorem packed_pair : ∀ tx ∈ pair, tx.Packed .five := by
  have hnull := isPacked_null .five
  intro tx htx
  rcases List.mem_pair.mp htx with rfl | rfl
  · exact ⟨hnull 6561, hnull 243, hnull 81, hnull 243, hnull 243, hnull 243, hnull 81, hnull 81⟩
  · exact ⟨hnull 6561, hnull 243, hnull 81, hnull 243, hnull 243, hnull 243, hnull 81, hnull 81⟩

theorem iotaPowBundle_pair (trunk branch : List FlexTrit) :
    ∃ txs, iotaPowBundle platform pair trunk branch 0 (fun _ => attempt) = some (.ok, txs) := by
  have hlanes : 0 < platform.lanes := by decide
  have hprocs : 0 < platform.procs := by decide
  have hfound : attempt.found = some (0, 0) := rfl
  have hfirst : pair[placeOf 1 pair]? = some { transactionReset .five with
      currentIndex := 1, lastIndex := 1 } := rfl
  obtain ⟨tx', c, hindex, hc, hstep⟩ := powStep_zero trunk branch none hlanes hprocs hfound
    hfirst (.inl rfl)
  have hplace : placeOf 1 pair = 0 := rfl
  have hnext : placeOf 0 (pair.set 0 tx') = 1 := by
    have hset : pair.set 0 tx' = [tx', { transactionReset .five with lastIndex := 1 }] := rfl
    rw [placeOf, hset, List.map_cons, hindex]
    rfl
  have hsecond : (pair.set 0 tx')[placeOf 0 (pair.set 0 tx')]? =
      some { transactionReset .five with lastIndex := 1 } := by
    rw [hnext]
    rfl
  obtain ⟨tx'', c', -, -, hlast⟩ := powStep_zero trunk branch c hlanes hprocs hfound hsecond
    (.inr (hc (by decide)))
  rw [hplace] at hstep
  refine ⟨(pair.set 0 tx').set (placeOf 0 (pair.set 0 tx')) tx'', ?_⟩
  show powLoop platform trunk branch 0 (fun _ => attempt) 1 none pair = _
  rw [powLoop, hstep]
  dsimp only
  rw [powLoop, hlast]
  rfl

/-- The pair is attached. -/
theorem iotaPowBundle_attached_pair :
    ∃ txs' : List IotaTransaction, ∃ wire : ℕ → List ℤ,
      (∀ j ≤ 1, ∃ tx tx', pair[placeOf j pair]? = some tx ∧ tx.currentIndex.toNat = j ∧
        txs'[placeOf j pair]? = some tx' ∧
        Attached .five 0 (transactionReset .five).trunk (transactionReset .five).branch
          (if j = 1 then none else some (wire (j + 1))) 0 tx tx' (wire j)) ∧
      txs'.length = pair.length ∧ ∀ q, (∀ j ≤ 1, q ≠ placeOf j pair) → txs'[q]? = pair[q]? := by
  obtain ⟨txs', h⟩ := iotaPowBundle_pair (transactionReset .five).trunk
    (transactionReset .five).branch
  have hfirst : pair.head? = some { transactionReset .five with
      currentIndex := 1, lastIndex := 1 } := rfl
  exact ⟨txs', iotaPowBundle_attached hfirst packed_pair (isPacked_null .five 243)
    (isPacked_null .five 243) (by decide)
    (fun _ => ⟨List.length_replicate, List.length_replicate⟩) h⟩

end Attachment

end Entangled
