import Entangled.Network.Pipeline
/-!
# The recently seen bytes

An entry of the cache is genuine when some bytes with its digest have its hash and spell a
transaction the validator accepted. The validator writes what it has validated, accepted or not; the
responder writes the hash it was asked for, which for a random tip is the null hash, under the
digest of what it makes of the transaction it loaded, whose value may have wrapped. In runs where
none of these three things happens every entry is genuine (`recentSeen_sound`). One request for a
random tip is enough to spoil the cache.
-/

namespace Entangled

namespace Pipeline

open Ternary Trinary Codec

variable {Neighbor : Type} {C : Config} {s s₀ : Node Neighbor}

/-- Some bytes have the digest and the hash of the entry, and were accepted. -/
def Genuine (C : Config) (accepted : List (List ℤ)) (entry : UInt64 × List FlexTrit) : Prop :=
  ∃ bytes : List Int8, bytes.length = gossipTxBytesLength ∧ digestOf C bytes = entry.1 ∧
    hashOf C bytes = entry.2 ∧ tritsOf bytes ∈ accepted

/-- The cache is sound. -/
structure Sound (C : Config) (s : Node Neighbor) : Prop where
  genuine : ∀ entry ∈ s.recentSeenBytes, Genuine C s.accepted entry
  /-- A packet that is found has the hash it is found with, unless two digests collide. -/
  attributed : ∀ content hash, cacheGet s.recentSeenBytes (digestOf C content) = some hash →
    (∀ bytes : List Int8, bytes.length = gossipTxBytesLength →
      digestOf C bytes = digestOf C content → bytes = content.take gossipTxBytesLength) →
    hash = hashOf C content

/-- The transaction of a packet, read and written again, has the trits it came with. -/
def Faithful (C : Config) (content : List Int8) : Prop :=
  ∀ r w hash tx, r.Sized C.E → w.Sized C.E → transactionOf C r content hash = some tx →
    ∃ bytes, bytesOf C w tx = some bytes ∧ bytes.length = gossipTxBytesLength ∧
      tritsOf bytes = tritsOf content

/-- What a step has to meet: a validated packet is accepted, a stored one is faithful, and no
request for a random tip is answered with one. -/
def Careful (C : Config) (s : Node Neighbor) : Action Neighbor → Prop
  | .validate tv now stray r stores =>
    ∀ payload hash validator, s.validator = (payload, hash) :: validator → s.validating = none →
      accepts C tv now stray r payload.content hash = true ∧
        (stores = true → Faithful C payload.content)
  | .respondToRequest _ =>
    ∀ responding, s.responding = some responding → isNull C responding.hash = true →
      responding.respond = false ∨ responding.loaded = none
  | _ => True

/-- A transaction as the validator stores it. -/
def Stored (C : Config) (accepted : List (List ℤ)) (tx : IotaTransaction) : Prop :=
  ∃ r content, r.Sized C.E ∧ content.length = gossipMaxBytesLength ∧
    transactionOf C r content (hashOf C content) = some tx ∧ tritsOf content ∈ accepted ∧
    Faithful C content

/-- Nothing is on its way, and the store holds what was accepted before. -/
structure Fresh (C : Config) (s : Node Neighbor) : Prop where
  recentSeenBytes : s.recentSeenBytes = []
  processor : s.processor = []
  hasher : s.hasher = []
  hashing : s.hashing = []
  validator : s.validator = []
  validating : s.validating = none
  responder : s.responder = []
  responding : s.responding = none
  transactions : ∀ tx ∈ s.transactions, Stored C s.accepted tx

/-! ## Which packets are faithful -/

/-- What the validator reads of a packet. Bytes that are flex trits already are taken as they are,
so there they have to be spelled the way the node spells them. -/
theorem transactionOf_eq {content : List Int8} (hlength : content.length = gossipMaxBytesLength)
    (hspelled : C.E = .five → tritsToBytes (tritsOf content) <+: content) {r : Reader}
    (hr : r.Sized C.E) (hash : List FlexTrit) :
    transactionOf C r content hash =
      some ((Fields.read (tritsOf content)).transaction C.E hash) := by
  have hsize : (content.take gossipTxBytesLength).length = 1604 := by
    rw [List.length_take, hlength]
    rfl
  have hroom : numTritsSerializedTransaction ≤ 5 * (content.take gossipTxBytesLength).length := by
    rw [hsize]
    decide
  have hts : Trits (tritsOf content) := trits_bytesToTrits _ _
  have hl : (tritsOf content).length = numTritsSerializedTransaction := length_bytesToTrits hroom
  have hcount : Countable C.E (tritsOf content).length := by
    rw [hl]
    rcases C.E with _ | _ | _ | _ <;> exact fun _ => by decide
  have hread : ∃ dst', flexTritsFromBytes C.E
      (List.replicate (C.E.numFlexTritsForTrits numTritsSerializedTransaction) C.E.nullValue)
      numTritsSerializedTransaction content numTritsSerializedTransaction
      (tritsOf content).length = some (dst', (tritsOf content).length) ∧
      dst'.length = C.E.numFlexTritsForTrits numTritsSerializedTransaction ∧
        pack C.E (tritsOf content) <+: dst' := by
    by_cases hE : C.E = .five
    · exact flexTritsFromBytes_spec hts hcount (hspelled hE) hl.le hl.le List.length_replicate
    · refine flexTritsFromBytes_decodes hE hcount
        (decodes_bytesToTrits hroom (List.take_prefix _ _)) ?_ hl.le hl.le List.length_replicate
      rw [hl, hlength]
      decide
  obtain ⟨dst', hsome, hsize', hpre⟩ := hread
  have hdst : dst' = pack C.E (tritsOf content) := by
    refine (hpre.eq_of_length ?_).symm
    rw [length_pack, hl, hsize']
  rw [hl, hdst] at hsome
  simp only [transactionOf, hsome]
  rw [if_neg (by simp), transactionDeserializeTrits_pack hts hl (transactionReset_sized C.E) hr
    false]
  simp only
  rw [if_neg (by simp [numTritsSerializedTransaction])]
  rfl

/-- What the responder writes of a transaction whose value fits. -/
theorem bytesOf_eq {ts : List ℤ} (hts : Trits ts) (hl : ts.length = numTritsSerializedTransaction)
    (hfits : Word.Fits (exactValue ts)) {w : Writer} (hw : w.Sized C.E) (hash : List FlexTrit) :
    bytesOf C w ((Fields.read ts).transaction C.E hash) = some (tritsToBytes ts) := by
  have hcount : Countable C.E ts.length := by
    rw [hl]
    rcases C.E with _ | _ | _ | _ <;> exact fun _ => by decide
  have hdrained : Drained C.E ts := by
    left
    rw [hl]
    rcases C.E with _ | _ | _ | _ <;> decide
  have hwrite := flexTritsToBytes_eq hts hcount hdrained (List.prefix_refl (pack C.E ts)) hl.le hl.le
    (List.length_replicate (n := gossipTxBytesLength) (a := (0 : Int8)))
  rw [hl] at hwrite
  rw [bytesOf, transactionSerialize_pack (Fields.valid_read hts hl)
    (by rw [value_read]; exact hfits) hw, Fields.wire_read hts hl, hwrite]
  show some (_ ++ List.replicate 0 0) = _
  rw [List.replicate_zero, List.append_nil]

/-- **A packet is faithful when its value fits an `int64_t`.** -/
theorem faithful_of_fits {content : List Int8} (hlength : content.length = gossipMaxBytesLength)
    (hspelled : C.E = .five → tritsToBytes (tritsOf content) <+: content)
    (hfits : Word.Fits (exactValue (tritsOf content))) : Faithful C content := by
  intro r w hash tx hr hw htx
  have hroom : numTritsSerializedTransaction ≤ 5 * (content.take gossipTxBytesLength).length := by
    rw [List.length_take, hlength]
    decide
  have hts : Trits (tritsOf content) := trits_bytesToTrits _ _
  have hl : (tritsOf content).length = numTritsSerializedTransaction := length_bytesToTrits hroom
  have hsize : (tritsToBytes (tritsOf content)).length = gossipTxBytesLength := by
    rw [length_tritsToBytes, hl]
    rfl
  rw [transactionOf_eq hlength hspelled hr] at htx
  rw [← Option.some.inj htx]
  refine ⟨_, bytesOf_eq hts hl hfits hw hash, hsize, ?_⟩
  have hback := bytesToTrits_of_decodes
    (decodes_tritsToBytes hts (List.prefix_refl (tritsToBytes (tritsOf content))))
    (length_tritsToBytes _).ge
  rwa [hl] at hback

/-! ## The invariant -/

/-- A payload has the digest of its content. -/
def Digested (C : Config) (payload : Payload Neighbor) : Prop :=
  payload.content.length = gossipMaxBytesLength ∧ payload.digest = digestOf C payload.content

structure Inv (C : Config) (s : Node Neighbor) : Prop where
  cache : ∀ entry ∈ s.recentSeenBytes, Genuine C s.accepted entry
  processor : ∀ content ∈ s.processor, content.length = gossipMaxBytesLength
  hasher : ∀ payload ∈ s.hasher, Digested C payload
  hashing : ∀ payload ∈ s.hashing, Digested C payload
  validator : ∀ p ∈ s.validator, Digested C p.1 ∧ p.2 = hashOf C p.1.content
  validating : ∀ payload hash, s.validating = some (.validated payload hash) →
    Digested C payload ∧ hash = hashOf C payload.content ∧ tritsOf payload.content ∈ s.accepted
  transactions : ∀ tx ∈ s.transactions, Stored C s.accepted tx
  responding : ∀ responding tx, s.responding = some responding → responding.loaded = some tx →
    Stored C s.accepted tx ∧ (isNull C responding.hash = false → tx.hash = responding.hash)

theorem Genuine.mono {accepted accepted' : List (List ℤ)} {entry : UInt64 × List FlexTrit}
    (H : Genuine C accepted entry) (hsub : accepted ⊆ accepted') : Genuine C accepted' entry := by
  obtain ⟨bytes, hlength, hdigest, hhash, hacc⟩ := H
  exact ⟨bytes, hlength, hdigest, hhash, hsub hacc⟩

theorem Stored.mono {accepted accepted' : List (List ℤ)} {tx : IotaTransaction}
    (H : Stored C accepted tx) (hsub : accepted ⊆ accepted') : Stored C accepted' tx := by
  obtain ⟨r, content, hr, hlength, htx, hacc, hfaithful⟩ := H
  exact ⟨r, content, hr, hlength, htx, hsub hacc, hfaithful⟩

/-- The digest, the trits and the hash of a packet are those of its transaction bytes. -/
theorem digestOf_take (content : List Int8) :
    digestOf C (content.take gossipTxBytesLength) = digestOf C content := by
  rw [digestOf, digestOf, List.take_take, Nat.min_self]

theorem tritsOf_take (content : List Int8) :
    tritsOf (content.take gossipTxBytesLength) = tritsOf content := by
  rw [tritsOf, tritsOf, List.take_take, Nat.min_self]

theorem hashOf_congr {content content' : List Int8} (heq : tritsOf content = tritsOf content') :
    hashOf C content = hashOf C content' := by
  rw [hashOf, hashOf, heq]

/-- The entry of a packet that was accepted. -/
theorem genuine_of_content {accepted : List (List ℤ)} {content : List Int8}
    (hlength : content.length = gossipMaxBytesLength) (hacc : tritsOf content ∈ accepted) :
    Genuine C accepted (digestOf C content, hashOf C content) := by
  refine ⟨content.take gossipTxBytesLength, ?_, digestOf_take content,
    hashOf_congr (tritsOf_take content), ?_⟩
  · rw [List.length_take, hlength]
    rfl
  · rwa [tritsOf_take]

theorem mem_cachePut {capacity : ℕ} {cache : List (UInt64 × List FlexTrit)} {digest : UInt64}
    {hash : List FlexTrit} {entry : UInt64 × List FlexTrit}
    (hmem : entry ∈ cachePut capacity cache digest hash) :
    entry ∈ cache ∨ entry = (digest, hash) := by
  unfold cachePut at hmem
  split_ifs at hmem with hfound hfull
  · exact Or.inl hmem
  · rw [List.mem_append, List.mem_singleton] at hmem
    exact hmem.imp_left List.mem_of_mem_tail
  · rwa [List.mem_append, List.mem_singleton] at hmem

/-- A request only goes into the queue of the responder. -/
theorem processRequest_eq (neighbor : Option Neighbor) (content : List Int8)
    (hash : List FlexTrit) (s : Node Neighbor) :
    ∃ responder, processRequest C neighbor content hash s = { s with responder } := by
  unfold processRequest
  simp only
  split
  · split_ifs with hn
    · exact ⟨s.responder, rfl⟩
    · exact ⟨_, rfl⟩
    · exact ⟨_, rfl⟩
  · exact ⟨s.responder, rfl⟩

theorem Inv.processRequest (H : Inv C s) (neighbor : Option Neighbor) (content : List Int8)
    (hash : List FlexTrit) : Inv C (processRequest C neighbor content hash s) := by
  obtain ⟨responder, heq⟩ := processRequest_eq (C := C) neighbor content hash s
  rw [heq]
  exact ⟨H.cache, H.processor, H.hasher, H.hashing, H.validator, H.validating, H.transactions,
    H.responding⟩

theorem Inv.process (H : Inv C s) (neighbor : Option Neighbor) :
    Inv C (process C neighbor s) := by
  unfold Pipeline.process
  split
  · exact H
  · rename_i content processor hqueue
    have hprocessor := H.processor
    rw [hqueue, List.forall_mem_cons] at hprocessor
    have H' : Inv C { s with processor } := ⟨H.cache, hprocessor.2, H.hasher, H.hashing,
      H.validator, H.validating, H.transactions, H.responding⟩
    simp only
    split
    · split_ifs with hneighbor
      · exact H'.processRequest neighbor content _
      · exact H'
    · refine ⟨H.cache, hprocessor.2, ?_, H.hashing, H.validator, H.validating, H.transactions,
        H.responding⟩
      intro payload hmem
      rcases List.mem_append.mp hmem with hmem | hmem
      · exact H.hasher payload hmem
      · rw [List.mem_singleton.mp hmem]
        exact ⟨hprocessor.1, rfl⟩

theorem Inv.fill (H : Inv C s) (packetsNum : ℕ) : Inv C (fill packetsNum s) := by
  unfold Pipeline.fill
  split_ifs with hempty
  · exact ⟨H.cache, H.processor, fun payload hmem => H.hasher payload (List.mem_of_mem_drop hmem),
      fun payload hmem => H.hasher payload (List.mem_of_mem_take hmem), H.validator, H.validating,
      H.transactions, H.responding⟩
  · exact H

theorem Inv.emit (H : Inv C s) : Inv C (emit C s) := by
  unfold Pipeline.emit
  split
  · exact H
  · rename_i payload hashing hqueue
    have hhashing := H.hashing
    rw [hqueue, List.forall_mem_cons] at hhashing
    refine ⟨H.cache, H.processor, H.hasher, hhashing.2, ?_, H.validating, H.transactions,
      H.responding⟩
    intro p hmem
    rcases List.mem_append.mp hmem with hmem | hmem
    · exact H.validator p hmem
    · rw [List.mem_singleton.mp hmem]
      exact ⟨hhashing.1, rfl⟩

/-- An accepted packet is recorded; a stored one has the hash the hasher made of it. -/
theorem Inv.validate (H : Inv C s) {tv : TransactionValidator} {now : UInt64} {stray : FlexTrit}
    {r : Reader} {stores : Bool} (hr : r.Sized C.E)
    (hmeets : Careful C s (.validate tv now stray r stores)) :
    Inv C (validate C tv now stray r stores s) := by
  unfold Pipeline.validate
  split
  · rename_i payload hash validator hqueue hidle
    have hvalidator := H.validator
    rw [hqueue, List.forall_mem_cons] at hvalidator
    obtain ⟨⟨hdigested, hhash⟩, hrest⟩ := hvalidator
    obtain rfl : hash = hashOf C payload.content := hhash
    obtain ⟨haccepts, hfaithful⟩ := hmeets payload _ validator hqueue hidle
    unfold accepts at haccepts
    rcases htx : transactionOf C r payload.content (hashOf C payload.content) with _ | tx
    · rw [htx] at haccepts
      exact absurd haccepts Bool.false_ne_true
    · rw [htx] at haccepts
      have hvalid : transactionValidate C.E tv now stray tx = true := haccepts
      simp only [hvalid, if_true]
      have hsub : s.accepted ⊆ tritsOf payload.content :: s.accepted :=
        List.subset_cons_self _ _
      have hphase : ∀ payload' hash', some (Validating.validated payload
          (hashOf C payload.content)) = some (.validated payload' hash') →
          Digested C payload' ∧ hash' = hashOf C payload'.content ∧
            tritsOf payload'.content ∈ tritsOf payload.content :: s.accepted := by
        intro payload' hash' heq
        obtain ⟨rfl, rfl⟩ := Validating.validated.inj (Option.some.inj heq)
        exact ⟨hdigested, rfl, List.mem_cons_self⟩
      have hloaded : ∀ responding tx, s.responding = some responding →
          responding.loaded = some tx → Stored C (tritsOf payload.content :: s.accepted) tx ∧
            (isNull C responding.hash = false → tx.hash = responding.hash) :=
        fun responding tx hs hl =>
          ⟨(H.responding responding tx hs hl).1.mono hsub, (H.responding responding tx hs hl).2⟩
      split_ifs with hnew
      · refine ⟨fun entry hmem => (H.cache entry hmem).mono hsub, H.processor, H.hasher, H.hashing,
          hrest, hphase, ?_, hloaded⟩
        intro tx' hmem
        rcases List.mem_append.mp hmem with hmem | hmem
        · exact (H.transactions tx' hmem).mono hsub
        · rw [List.mem_singleton.mp hmem]
          exact ⟨r, payload.content, hr, hdigested.1, htx, List.mem_cons_self, hfaithful hnew.1⟩
      · exact ⟨fun entry hmem => (H.cache entry hmem).mono hsub, H.processor, H.hasher, H.hashing,
          hrest, hphase, fun tx' hmem => (H.transactions tx' hmem).mono hsub, hloaded⟩
  · exact H

theorem Inv.cacheValidated (H : Inv C s) : Inv C (cacheValidated C s) := by
  unfold Pipeline.cacheValidated
  split
  · rename_i payload hash hphase
    obtain ⟨⟨hlength, hdigest⟩, hhash, hacc⟩ := H.validating payload hash hphase
    refine ⟨?_, H.processor, H.hasher, H.hashing, H.validator, ?_, H.transactions, H.responding⟩
    · intro entry hmem
      rcases mem_cachePut hmem with hmem | rfl
      · exact H.cache entry hmem
      · rw [hdigest, hhash]
        exact genuine_of_content hlength hacc
    · intro payload' hash' heq
      exact absurd (Option.some.inj heq) (fun h => by cases h)
  · exact H

theorem Inv.requestValidated (H : Inv C s) : Inv C (requestValidated C s) := by
  unfold Pipeline.requestValidated
  split
  · refine Inv.processRequest ?_ _ _ _
    exact ⟨H.cache, H.processor, H.hasher, H.hashing, H.validator,
      fun payload hash heq => absurd heq (Option.some_ne_none _).symm, H.transactions,
      H.responding⟩
  · exact H

theorem Inv.getTransactionForRequest (H : Inv C s) (synced : Bool) (tip : Option (List FlexTrit))
    (loads : Bool) : Inv C (getTransactionForRequest C synced tip loads s) := by
  have hload : ∀ {hash tx}, load s.transactions hash = some tx →
      Stored C s.accepted tx ∧ tx.hash = hash := by
    intro hash tx hfind
    have hfound : (tx.hash == hash) = true :=
      List.find?_some (p := fun tx : IotaTransaction => tx.hash == hash) hfind
    exact ⟨H.transactions tx (List.mem_of_find?_eq_some hfind), eq_of_beq hfound⟩
  unfold Pipeline.getTransactionForRequest
  split
  · rename_i neighbor hash responder hqueue hidle
    refine ⟨H.cache, H.processor, H.hasher, H.hashing, H.validator, H.validating, H.transactions,
      ?_⟩
    intro responding tx heq hloaded
    obtain rfl := Option.some.inj heq
    split_ifs at hloaded ⊢ with hnull hloads hloads
    · -- a tip, whatever its hash
      obtain ⟨hash', -, hfind⟩ := Option.bind_eq_some_iff.mp hloaded
      exact ⟨(hload hfind).1, fun h => absurd (hnull.symm.trans h) (by decide)⟩
    · exact ⟨(hload hloaded).1, fun _ => (hload hloaded).2⟩
  · exact H

/-- The hash of a transaction is the one it was stored with. -/
theorem hash_of_transactionOf {r : Reader} {content : List Int8} {hash : List FlexTrit}
    {tx : IotaTransaction} (htx : transactionOf C r content hash = some tx) : tx.hash = hash := by
  unfold transactionOf at htx
  simp only at htx
  split at htx
  · exact absurd htx (Option.some_ne_none _).symm
  · split_ifs at htx
    rw [← Option.some.inj htx]

/-- An answer with the transaction that was asked for. -/
theorem Inv.respondToRequest (H : Inv C s) {w : Writer} (hw : w.Sized C.E)
    (hmeets : Careful C s (.respondToRequest w)) : Inv C (respondToRequest C w s) := by
  have hidle : ∀ {recentSeenBytes}, (∀ entry ∈ recentSeenBytes, Genuine C s.accepted entry) →
      Inv C { s with responding := none, recentSeenBytes } := fun hcache =>
    ⟨hcache, H.processor, H.hasher, H.hashing, H.validator, H.validating, H.transactions,
      fun responding tx heq => absurd heq (Option.some_ne_none _).symm⟩
  unfold Pipeline.respondToRequest
  split
  · exact H
  · rename_i responding hresponding
    simp only
    split
    · rename_i bytes hrespond hbytes
      obtain ⟨tx, hloaded, hwritten⟩ := Option.bind_eq_some_iff.mp hbytes
      obtain ⟨⟨r, content, hr, hlength, htx, hacc, hfaithful⟩, hasked⟩ :=
        H.responding responding tx hresponding hloaded
      have hnull : isNull C responding.hash = false := by
        by_contra hne
        rcases hmeets responding hresponding (Bool.not_eq_false _ ▸ hne) with hno | hno
        · rw [hno] at hrespond
          exact absurd hrespond Bool.false_ne_true
        · rw [hno] at hloaded
          exact absurd hloaded (Option.some_ne_none _).symm
      obtain ⟨bytes', hbytes', hsize, htrits⟩ := hfaithful r w _ tx hr hw htx
      obtain rfl : bytes' = bytes := Option.some.inj (hbytes'.symm.trans hwritten)
      refine hidle fun entry hmem => ?_
      rcases mem_cachePut hmem with hmem | rfl
      · exact H.cache entry hmem
      · refine ⟨bytes', hsize, rfl, ?_, htrits ▸ hacc⟩
        rw [hashOf_congr htrits, ← hash_of_transactionOf htx, hasked hnull]
    · exact hidle H.cache

/-- **One action** keeps the invariant. -/
theorem Inv.act (H : Inv C s) {a : Action Neighbor} (hpossible : Possible C s a)
    (hmeets : Careful C s a) : Inv C (act C a s) := by
  cases a with
  | receive content =>
    refine ⟨H.cache, ?_, H.hasher, H.hashing, H.validator, H.validating, H.transactions,
      H.responding⟩
    intro content' hmem
    rcases List.mem_append.mp hmem with hmem | hmem
    · exact H.processor content' hmem
    · rw [List.mem_singleton.mp hmem]
      exact hpossible
  | process neighbor => exact H.process neighbor
  | fill packetsNum => exact H.fill packetsNum
  | emit => exact H.emit
  | validate tv now stray r stores => exact H.validate hpossible hmeets
  | cacheValidated => exact H.cacheValidated
  | requestValidated => exact H.requestValidated
  | getTransactionForRequest synced tip loads => exact H.getTransactionForRequest synced tip loads
  | respondToRequest w => exact H.respondToRequest hpossible hmeets
  | setTips tips =>
    exact ⟨H.cache, H.processor, H.hasher, H.hashing, H.validator, H.validating, H.transactions,
      H.responding⟩
  | prune hashes =>
    exact ⟨H.cache, H.processor, H.hasher, H.hashing, H.validator, H.validating,
      fun tx hmem => H.transactions tx (List.mem_of_mem_filter hmem), H.responding⟩

theorem Fresh.inv (H : Fresh C s) : Inv C s where
  cache := by simp [H.recentSeenBytes]
  processor := by simp [H.processor]
  hasher := by simp [H.hasher]
  hashing := by simp [H.hashing]
  validator := by simp [H.validator]
  validating := by simp [H.validating]
  transactions := H.transactions
  responding := by simp [H.responding]

/-- **Every run** of careful actions keeps it. -/
theorem Inv.run (H : Inv C s₀) (hrun : Run C (Careful C) s₀ s) : Inv C s := by
  induction hrun with
  | start => exact H
  | step hrun a hpossible hmeets ih => exact ih.act hpossible hmeets

theorem Run.mono {Meets Meets' : Node Neighbor → Action Neighbor → Prop}
    (hrun : Run C Meets s₀ s) (hle : ∀ s a, Meets s a → Meets' s a) : Run C Meets' s₀ s := by
  induction hrun with
  | start => exact .start
  | step hrun a hpossible hmeets ih => exact ih.step a hpossible (hle _ a hmeets)

theorem Inv.sound (H : Inv C s) : Sound C s where
  genuine := H.cache
  attributed := by
    intro content hash hget hunique
    obtain ⟨entry, hfind, rfl⟩ := Option.map_eq_some_iff.mp hget
    obtain ⟨bytes, hlength, hdigest, hhash, -⟩ :=
      H.cache entry (List.mem_of_find?_eq_some hfind)
    have hfound := eq_of_beq (List.find?_some
      (p := fun entry : UInt64 × List FlexTrit => entry.1 == digestOf C content) hfind)
    have hsame := hunique bytes hlength (hdigest.trans hfound)
    rw [← hhash, hsame]
    exact hashOf_congr (tritsOf_take content)

/-- **The cache is sound in every careful run**: each entry has the hash of accepted bytes with its
digest. -/
theorem recentSeen_sound (hfresh : Fresh C s₀) (hrun : Run C (Careful C) s₀ s) : Sound C s :=
  (hfresh.inv.run hrun).sound

/-! ## A random tip -/

/-- The bytes of a transaction with such a value, null but for it. -/
def sampleBytes (v : ℤ) : List Int8 := tritsToBytes (valueTrits v)

/-- The packet with these bytes; it asks for the null hash. -/
def samplePacket (v : ℤ) : List Int8 := sampleBytes v ++ List.replicate 49 0

/-- A digest that tells the bytes of a zero value from others, and one hash for everything. -/
def sampleConfig : Config where
  E := .one
  mwm := 0
  capacity := 10
  xxh64 := fun bytes => if bytes = sampleBytes 0 then 0 else 1
  curl := ⟨fun _ => List.replicate 243 1,
    fun _ _ ht => List.eq_of_mem_replicate ht ▸ Or.inr (Or.inr rfl),
    fun _ => List.length_replicate⟩

def sampleHash : List FlexTrit := List.replicate 243 1

theorem hashOf_sampleConfig (content : List Int8) : hashOf sampleConfig content = sampleHash := by
  show (flexTritsFromTrits .one (List.replicate 243 0) 243 (List.replicate 243 1) 243 243).1 = _
  decide +kernel

theorem length_sampleBytes (v : ℤ) : (sampleBytes v).length = gossipTxBytesLength := by
  rw [sampleBytes, length_tritsToBytes, length_valueTrits]
  rfl

theorem length_samplePacket (v : ℤ) : (samplePacket v).length = gossipMaxBytesLength := by
  rw [samplePacket, List.length_append, length_sampleBytes, List.length_replicate]
  rfl

theorem take_samplePacket (v : ℤ) : (samplePacket v).take gossipTxBytesLength = sampleBytes v :=
  List.take_left' (length_sampleBytes v)

theorem tritsOf_samplePacket (v : ℤ) : tritsOf (samplePacket v) = valueTrits v := by
  have hback := bytesToTrits_of_decodes
    (decodes_tritsToBytes (trits_valueTrits v) (List.prefix_refl (sampleBytes v)))
    (length_tritsToBytes _).ge
  rw [tritsOf, take_samplePacket]
  have hwhole : (sampleBytes v).take (minBytes 8019) = sampleBytes v :=
    List.take_of_length_le (length_sampleBytes v).le
  rwa [length_valueTrits, hwhole] at hback

theorem sampleBytes_ne : sampleBytes 1 ≠ sampleBytes 0 := by
  intro heq
  have htrits : valueTrits 1 = valueTrits 0 := by
    rw [← tritsOf_samplePacket, ← tritsOf_samplePacket, samplePacket, samplePacket, heq]
  have hvalue : (1 : ℤ) = 0 := by
    rw [← exactValue_valueTrits (v := 1) (by decide), ← exactValue_valueTrits (v := 0) (by decide),
      htrits]
  exact absurd hvalue (by decide)

theorem digestOf_samplePacket : digestOf sampleConfig (samplePacket 1) = 1 := by
  simp only [digestOf, take_samplePacket, sampleConfig, sampleBytes_ne, if_false]

/-- The transaction of a packet. -/
def sampleTransaction (v : ℤ) : IotaTransaction :=
  (Fields.read (valueTrits v)).transaction .one sampleHash

theorem transactionOf_samplePacket (v : ℤ) {r : Reader} (hr : r.Sized .one) :
    transactionOf sampleConfig r (samplePacket v) sampleHash = some (sampleTransaction v) := by
  rw [transactionOf_eq (length_samplePacket v) (fun hE => by cases hE) hr, tritsOf_samplePacket]
  rfl

def sampleReader : Reader := ⟨0, List.replicate 81 0, List.replicate 81 0⟩

def sampleWriter : Writer := ⟨List.replicate 8019 0, 0, List.replicate 81 0⟩

theorem sized_sampleReader : sampleReader.Sized .one :=
  ⟨List.length_replicate, List.length_replicate⟩

theorem sized_sampleWriter : sampleWriter.Sized .one :=
  ⟨List.length_replicate, List.length_replicate⟩

theorem bytesOf_sampleTransaction :
    bytesOf sampleConfig sampleWriter (sampleTransaction 0) = some (sampleBytes 0) :=
  bytesOf_eq (C := sampleConfig) (trits_valueTrits 0) (length_valueTrits 0)
    (by rw [exactValue_valueTrits (by decide)]; decide) sized_sampleWriter sampleHash

/-- The request of a packet. -/
theorem processRequest_samplePacket (s : Node Unit) (v : ℤ) :
    processRequest sampleConfig (some ()) (samplePacket v) sampleHash s =
      { s with responder := s.responder ++ [((), List.replicate 243 0)] } := by
  have hdrop : (samplePacket v).drop gossipTxBytesLength = List.replicate 49 0 :=
    List.drop_left' (length_sampleBytes v)
  have hread : flexTritsFromBytes .one (List.replicate 243 0) 243 (List.replicate 49 0) 243 243 =
      some (List.replicate 243 0, 243) := by decide +kernel
  have hne : List.replicate 243 (0 : Int8) ≠ sampleHash := by decide +kernel
  unfold processRequest
  rw [hdrop]
  simp only [sampleConfig, Encoding.numFlexTritsForTrits, Encoding.nullValue, Nat.sub_zero, hread,
    ne_eq, not_true_eq_false, if_false, hne]

/-- A node that stores the transaction with value zero, which is its only tip. -/
def sampleNode : Node Unit where
  recentSeenBytes := []
  processor := []
  hasher := []
  hashing := []
  validator := []
  validating := none
  responder := []
  responding := none
  tips := [sampleHash]
  transactions := [sampleTransaction 0]
  accepted := [valueTrits 0]

theorem faithful_samplePacket (v : ℤ) (hv : Word.Fits v) (hreach : 2 * |v| < 3 ^ 81) :
    Faithful sampleConfig (samplePacket v) := by
  refine faithful_of_fits (length_samplePacket v) (fun hE => by cases hE) ?_
  rwa [tritsOf_samplePacket, exactValue_valueTrits hreach]

theorem fresh_sampleNode : Fresh sampleConfig sampleNode where
  recentSeenBytes := rfl
  processor := rfl
  hasher := rfl
  hashing := rfl
  validator := rfl
  validating := rfl
  responder := rfl
  responding := rfl
  transactions := by
    intro tx hmem
    obtain rfl := List.mem_singleton.mp hmem
    refine ⟨sampleReader, samplePacket 0, sized_sampleReader, length_samplePacket 0, ?_, ?_,
      faithful_samplePacket 0 (by decide) (by decide)⟩
    · rw [hashOf_sampleConfig]
      exact transactionOf_samplePacket 0 sized_sampleReader
    · rw [tritsOf_samplePacket]
      exact List.mem_cons_self

/-- The node when the packet of a transaction it accepts has got to the cache. -/
def seenNode : Node Unit :=
  { sampleNode with
    recentSeenBytes := [(1, sampleHash)]
    validating := some (.cached ⟨samplePacket 1, 1, some ()⟩ sampleHash)
    accepted := [valueTrits 1, valueTrits 0] }

theorem accepts_samplePacket {v : ℤ} (hv : Tolerated (Int64.ofInt (exactValue (valueTrits v)))) :
    transactionValidate .one laxValidator 0 0 (sampleTransaction v) = true :=
  transactionValidate_read_valueTrits v sampleHash 0 0 hv

/-- A packet with a transaction that is accepted gets there in a careful run. -/
theorem run_seenNode : Run sampleConfig (Careful sampleConfig) sampleNode seenNode := by
  have h₀ : Run sampleConfig (Careful sampleConfig) sampleNode sampleNode := .start
  have h₂ := (h₀.step
    (.receive (samplePacket 1)) (length_samplePacket 1) trivial).step
    (.process (some ())) trivial trivial
  have e₂ : act sampleConfig (.process (some ()))
      (act sampleConfig (.receive (samplePacket 1)) sampleNode) =
      { sampleNode with hasher := [⟨samplePacket 1, 1, some ()⟩] } := by
    show { sampleNode with
      hasher := [⟨samplePacket 1, digestOf sampleConfig (samplePacket 1), some ()⟩] } = _
    rw [digestOf_samplePacket]
  rw [e₂] at h₂
  have h₄ := (h₂.step (.fill 64) trivial trivial).step .emit trivial trivial
  have e₄ : act sampleConfig .emit (act sampleConfig (.fill 64)
      { sampleNode with hasher := [⟨samplePacket 1, 1, some ()⟩] }) =
      { sampleNode with validator := [(⟨samplePacket 1, 1, some ()⟩, sampleHash)] } := by
    show { sampleNode with
      validator := [(⟨samplePacket 1, 1, some ()⟩, hashOf sampleConfig (samplePacket 1))] } = _
    rw [hashOf_sampleConfig]
  rw [e₄] at h₄
  have htx := transactionOf_samplePacket 1 sized_sampleReader
  have hvalid := accepts_samplePacket (v := 1) (by
    rw [exactValue_valueTrits (by decide)]
    exact Or.inr (by decide))
  have hcareful : Careful sampleConfig
      { sampleNode with validator := [(⟨samplePacket 1, 1, some ()⟩, sampleHash)] }
      (.validate laxValidator 0 0 sampleReader false) := by
    intro payload hash validator hqueue hidle
    obtain ⟨rfl, rfl⟩ := Prod.mk.inj (List.cons.inj hqueue).1
    refine ⟨?_, fun hstores => absurd hstores Bool.false_ne_true⟩
    simp only [accepts, htx]
    exact hvalid
  have h₆ := (h₄.step (.validate laxValidator 0 0 sampleReader false) sized_sampleReader
    hcareful).step .cacheValidated trivial trivial
  have e₆ : act sampleConfig .cacheValidated (act sampleConfig
      (.validate laxValidator 0 0 sampleReader false)
      { sampleNode with validator := [(⟨samplePacket 1, 1, some ()⟩, sampleHash)] }) =
      seenNode := by
    have hvalidated : act sampleConfig (.validate laxValidator 0 0 sampleReader false)
        { sampleNode with validator := [(⟨samplePacket 1, 1, some ()⟩, sampleHash)] } =
        { sampleNode with
          validating := some (.validated ⟨samplePacket 1, 1, some ()⟩ sampleHash)
          accepted := [valueTrits 1, valueTrits 0] } := by
      have hE : transactionValidate sampleConfig.E laxValidator 0 0 (sampleTransaction 1) = true :=
        hvalid
      simp only [act, validate, sampleNode, htx, hE, tritsOf_samplePacket, if_true,
        Bool.false_eq_true, false_and, if_false]
    rw [hvalidated]
    rfl
  rwa [e₆] at h₆

/-- The cache is sound then. -/
theorem recentSeen_sound_seen : Sound sampleConfig seenNode :=
  recentSeen_sound fresh_sampleNode run_seenNode

/-- The packet asks for a random tip, and the tip's bytes get the null hash. -/
theorem not_recentSeen_sound_random_tip :
    ¬ ∀ (C : Config) (s₀ s : Node Unit), Fresh C s₀ → Run C (fun _ _ => True) s₀ s → Sound C s := by
  intro hall
  have h₆ : Run sampleConfig (fun _ _ => True) sampleNode seenNode :=
    run_seenNode.mono fun _ _ _ => trivial
  have h₇ := h₆.step .requestValidated trivial trivial
  have e₇ : act sampleConfig .requestValidated seenNode =
      { sampleNode with
        recentSeenBytes := [(1, sampleHash)]
        accepted := [valueTrits 1, valueTrits 0]
        responder := [((), List.replicate 243 0)] } :=
    processRequest_samplePacket _ 1
  rw [e₇] at h₇
  have h₈ := h₇.step (.getTransactionForRequest false (some sampleHash) true)
    (fun hash heq => Or.inl (Option.some.inj heq ▸ List.mem_singleton_self sampleHash)) trivial
  have e₈ : act sampleConfig (.getTransactionForRequest false (some sampleHash) true)
      { sampleNode with
        recentSeenBytes := [(1, sampleHash)]
        accepted := [valueTrits 1, valueTrits 0]
        responder := [((), List.replicate 243 0)] } =
      { sampleNode with
        recentSeenBytes := [(1, sampleHash)]
        accepted := [valueTrits 1, valueTrits 0]
        responding := some ⟨(), List.replicate 243 0, some (sampleTransaction 0), true⟩ } := by
    have hnull : isNull sampleConfig (List.replicate 243 0) = true := by decide +kernel
    have hload : load [sampleTransaction 0] sampleHash = some (sampleTransaction 0) :=
      List.find?_cons_of_pos (beq_self_eq_true sampleHash)
    simp only [act, getTransactionForRequest, sampleNode, hnull, hload, if_true, Option.bind_some,
      Bool.not_false]
  rw [e₈] at h₈
  have h₉ := h₈.step (.respondToRequest sampleWriter) sized_sampleWriter trivial
  have hmem : ((0 : UInt64), List.replicate 243 (0 : Int8)) ∈
      (act sampleConfig (.respondToRequest sampleWriter)
        { sampleNode with
          recentSeenBytes := [(1, sampleHash)]
          accepted := [valueTrits 1, valueTrits 0]
          responding := some ⟨(), List.replicate 243 0, some (sampleTransaction 0),
            true⟩ }).recentSeenBytes := by
    have hdigest : digestOf sampleConfig (sampleBytes 0) = 0 := by
      rw [digestOf, List.take_of_length_le (length_sampleBytes 0).le]
      simp only [sampleConfig, if_true]
    simp only [act, respondToRequest, Option.bind_some, bytesOf_sampleTransaction, hdigest]
    exact List.mem_cons_of_mem _ (List.mem_singleton_self _)
  obtain ⟨bytes, -, -, hhash, -⟩ :=
    (hall sampleConfig sampleNode _ fresh_sampleNode h₉).genuine _ hmem
  rw [hashOf_sampleConfig] at hhash
  exact absurd hhash (by decide +kernel)

end Pipeline

end Entangled
