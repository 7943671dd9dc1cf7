import Entangled.Common.Runs
import Entangled.Node.Fifo
import Entangled.Model.Types
/-!
# Runs of the transaction requester

A hash that the node wants is pending until it is polled, and counts as
requested from then until it is cleared. `request_transaction` makes room in a
full set before it looks whether the hash is pending, a poll does not look
whether the requested set took the hash, and the listing goes on to the
requested set only after an error.
-/

namespace Entangled

open Runs

variable {Hash : Type} [DecidableEq Hash]

/-- `transaction_requester_t`, with the `requester_queue_size` of the node's configuration. -/
structure Requester (Hash : Type) where
  hashes : List Hash
  requestedHashes : List Hash
  queueSize : ℕ

namespace Requester

variable {r : Requester Hash} {null h x : Hash} {exist : Except Retcode Bool} {oom : Bool}
  {fails : List Bool}

/-- `requester_init`. -/
def init (queueSize : ℕ) : Requester Hash := ⟨[], [], queueSize⟩

/-- `requester_size`. -/
def size (r : Requester Hash) : ℕ := r.hashes.length + r.requestedHashes.length

/-- `requester_get_requested_transactions`. -/
def getRequestedTransactions (r : Requester Hash) (fails : List Bool) (hashes : List Hash) :
    Pushed Hash :=
  let p := pushAll ⟨true, fails, hashes⟩ r.hashes
  if p.ok then p else pushAll p r.requestedHashes

/-- `requester_clear_request`. -/
def clearRequest (r : Requester Hash) (hash : Hash) : Requester Hash :=
  { r with
    hashes := hashSetRemove r.hashes hash
    requestedHashes := hashSetRemove r.requestedHashes hash }

/-- `request_transaction`, with what `iota_tangle_transaction_exist` answers; whether it returns
`RC_OK`. -/
def requestTransaction (null : Hash) (r : Requester Hash) (exist : Except Retcode Bool) (oom : Bool)
    (hash : Hash) : Except Retcode Unit × Requester Hash :=
  if hash = null then (.ok (), r)
  else
    match exist with
    | .error e => (.error e, r)
    | .ok true => (.ok (), r)
    | .ok false =>
        (if oom ∧ hash ∉ evict r.queueSize r.hashes then .error .oom else .ok (),
          { r with hashes := boundedAdd oom r.queueSize r.hashes hash })

/-- `get_transaction_to_request`: the hash to ask for. -/
def getTransactionToRequest (null : Hash) (r : Requester Hash) (oom : Bool) :
    Hash × Requester Hash :=
  match r.hashes with
  | [] => (null, r)
  | h :: hs =>
      (h, { r with hashes := hs, requestedHashes := setAdd oom r.requestedHashes h })

/-- The calls of the requester, with the answers of the tangle and of `malloc`. -/
inductive Call (Hash : Type)
  | request (hash : Hash) (exist : Except Retcode Bool) (oom : Bool)
  | poll (oom : Bool)
  | clear (hash : Hash)

/-- What a call makes of the requester. -/
def exec (null : Hash) (r : Requester Hash) : Call Hash → Requester Hash
  | .request hash exist oom => (requestTransaction null r exist oom hash).2
  | .poll oom => (getTransactionToRequest null r oom).2
  | .clear hash => r.clearRequest hash

/-- A hash that is pending or was requested. -/
def Holds (r : Requester Hash) (h : Hash) : Prop := h ∈ r.hashes ∨ h ∈ r.requestedHashes

/-- The room of the pending hashes is kept. -/
def Bounded (r : Requester Hash) : Prop := r.hashes.length ≤ r.queueSize

/-- A listing that succeeds has each hash of the two sets once, as many as the size. -/
def Listed (r : Requester Hash) : Prop :=
  ∀ fails, (r.getRequestedTransactions fails []).ok = true →
    Lists r.hashes r.requestedHashes r.size (r.getRequestedTransactions fails []).stack

/-- A full set makes room for a hash that is not pending, by dropping another one. -/
def MakesRoom (r : Requester Hash) (call : Call Hash) (h : Hash) : Prop :=
  ∃ hash exist oom, call = .request hash exist oom ∧ hash ≠ h ∧ hash ∉ r.hashes ∧
    r.queueSize ≤ r.hashes.length

/-- What is asked of a call: a hash goes only when it is cleared or room is made,
one that is pending also when it is polled, and the hash of a request that
returns `RC_OK`, which the tangle does not have, is held. -/
structure Kept (null : Hash) (r : Requester Hash) (call : Call Hash) : Prop where
  holds : ∀ h, r.Holds h →
    (r.exec null call).Holds h ∨ call = .clear h ∨ r.MakesRoom call h
  pending : ∀ h ∈ r.hashes, h ∈ (r.exec null call).hashes ∨ (∃ oom, call = .poll oom) ∨
    call = .clear h ∨ r.MakesRoom call h
  requested : ∀ hash oom, call = .request hash (.ok false) oom → hash ≠ null →
    (requestTransaction null r (.ok false) oom hash).1 = .ok () → (r.exec null call).Holds hash

/-- When a call keeps the hashes. Of a full set only the oldest hash is requested
again, and it gets its new entry; and so does the one that is polled. -/
def Careful (null : Hash) (r : Requester Hash) : Call Hash → Prop
  | .request hash exist oom => hash ≠ null → exist = .ok false → hash ∈ r.hashes →
      r.queueSize ≤ r.hashes.length → r.hashes.head? = some hash ∧ oom = false
  | .poll oom => ∀ h, r.hashes.head? = some h → oom = false ∨ h ∈ r.requestedHashes
  | .clear _ => True

/-- A call that takes nothing to the requested set. -/
def Unpolled (r : Requester Hash) : Call Hash → Prop
  | .poll _ => r.hashes = []
  | _ => True

/-- The invariant of every run. -/
structure Inv (r : Requester Hash) : Prop where
  queueSize : 1 ≤ r.queueSize
  hashes : r.hashes.Nodup
  bounded : r.Bounded

omit [DecidableEq Hash] in
theorem inv_init {queueSize : ℕ} (hq : 1 ≤ queueSize) : (init queueSize : Requester Hash).Inv :=
  ⟨hq, List.nodup_nil, Nat.zero_le _⟩

/-- What a request does to the requester: nothing, or it puts the hash in. -/
theorem exec_request (null : Hash) (r : Requester Hash) (h : Hash) (exist : Except Retcode Bool)
    (oom : Bool) :
    (h = null ∨ exist ≠ .ok false) ∧ r.exec null (.request h exist oom) = r ∨
    h ≠ null ∧ exist = .ok false ∧ r.exec null (.request h exist oom) =
      { r with hashes := boundedAdd oom r.queueSize r.hashes h } := by
  rw [exec, requestTransaction.eq_def]
  split
  · rename_i hnull
    exact .inl ⟨.inl hnull, rfl⟩
  · rename_i hnull
    match exist with
    | .error e => exact .inl ⟨.inr (by simp), rfl⟩
    | .ok true => exact .inl ⟨.inr (by simp), rfl⟩
    | .ok false => exact .inr ⟨hnull, rfl, rfl⟩

theorem Inv.exec (hr : r.Inv) (call : Call Hash) : (r.exec null call).Inv := by
  cases call with
  | request h exist oom =>
    rcases exec_request null r h exist oom with ⟨-, heq⟩ | ⟨-, -, heq⟩
    · rw [heq]
      exact hr
    · rw [heq]
      exact ⟨hr.queueSize, nodup_boundedAdd hr.hashes,
        length_boundedAdd_le hr.queueSize hr.bounded⟩
  | poll oom =>
    obtain ⟨hashes, requested, size⟩ := r
    cases hashes with
    | nil => exact hr
    | cons h hs =>
      exact ⟨hr.queueSize, (List.nodup_cons.mp hr.hashes).2, (Nat.le_succ _).trans hr.bounded⟩
  | clear h =>
    exact ⟨hr.queueSize, nodup_hashSetRemove hr.hashes, length_hashSetRemove_le.trans hr.bounded⟩

/-- The request that succeeds holds its hash, in every state. -/
theorem holds_requested (hne : h ≠ null)
    (hok : (requestTransaction null r (.ok false) oom h).1 = .ok ()) :
    (r.exec null (.request h (.ok false) oom)).Holds h := by
  rw [exec, requestTransaction, if_neg hne]
  rw [requestTransaction, if_neg hne] at hok
  dsimp only at hok
  refine .inl (mem_boundedAdd.mpr ?_)
  cases oom with
  | false => exact .inr ⟨rfl, rfl⟩
  | true =>
    split at hok
    · contradiction
    · rename_i hin
      exact .inl (by simpa using hin)

/-! ## One call -/

theorem kept_clear : r.Kept null (.clear h) where
  holds x hx := by
    rcases eq_or_ne x h with rfl | hne
    · exact .inr (.inl rfl)
    · exact .inl (hx.imp (fun hm => mem_hashSetRemove.mpr ⟨hm, hne⟩)
        fun hm => mem_hashSetRemove.mpr ⟨hm, hne⟩)
  pending x hx := by
    rcases eq_or_ne x h with rfl | hne
    · exact .inr (.inr (.inl rfl))
    · exact .inl (mem_hashSetRemove.mpr ⟨hx, hne⟩)
  requested hash oom heq := by contradiction

theorem Inv.kept_poll_iff (hr : r.Inv) :
    r.Kept null (.poll oom) ↔ r.Careful null (.poll oom) := by
  obtain ⟨hashes, requested, queueSize⟩ := r
  cases hashes with
  | nil => exact ⟨fun _ h hh => by simp at hh, fun _ =>
      ⟨fun h hh => .inl hh, fun h hh => .inl hh, fun _ _ heq => by contradiction⟩⟩
  | cons y ys =>
    have hnot : y ∉ ys := (List.nodup_cons.mp hr.hashes).1
    constructor
    · intro hk h hh
      obtain rfl : y = h := by simpa using hh
      rcases hk.holds y (.inl (by simp)) with (hin | hin) | heq | ⟨_, _, _, heq, _⟩
      · exact absurd hin hnot
      · cases oom with
        | false => exact .inl rfl
        | true => exact .inr hin
      · contradiction
      · contradiction
    · intro hc
      refine ⟨fun x hx => .inl ?_, fun x _ => .inr (.inl ⟨oom, rfl⟩), fun _ _ heq => by contradiction⟩
      -- the polled hash is in the requested set afterwards, the others stay where they are
      have hmono : ∀ z ∈ requested, z ∈ setAdd oom requested y := by
        intro z hz
        cases oom <;> simp [setAdd, hz]
      rcases hx with hx | hx
      · rcases List.mem_cons.mp hx with rfl | hx
        · rcases hc x rfl with rfl | hin
          · exact .inr (mem_hashSetAdd.mpr (.inr rfl))
          · exact .inr (hmono x hin)
        · exact .inl hx
      · exact .inr (hmono x hx)

/-- What a full set drops for a hash that is pending is its oldest one. -/
theorem Inv.kept_request_iff (hr : r.Inv) :
    r.Kept null (.request h exist oom) ↔ r.Careful null (.request h exist oom) := by
  rcases exec_request null r h exist oom with ⟨hnot, heq⟩ | ⟨hne, rfl, heq⟩
  · have hc : r.Careful null (.request h exist oom) := fun hne hexist =>
      (hnot.elim hne fun hn => hn hexist).elim
    refine ⟨fun _ => hc, fun _ => ⟨fun x hx => .inl ?_, fun x hx => .inl ?_, ?_⟩⟩
    · rwa [heq]
    · rwa [heq]
    · intro hash oom' hcall hne _
      obtain ⟨rfl, rfl, -⟩ := Call.request.inj hcall
      exact (hnot.elim hne fun hn => hn rfl).elim
  · constructor
    · intro hk _ _ hmem hfull
      obtain ⟨x, hx, hhead⟩ := exists_head hr.queueSize hfull
      have hgone := head_not_mem_evict hr.hashes hfull hhead
      have hpending := hk.pending x hx
      rw [heq] at hpending
      rcases hpending with hin | ⟨_, hpoll⟩ | hclear | ⟨_, _, _, hcall, _, hnot, _⟩
      · rcases mem_boundedAdd.mp hin with hin | ⟨hoom, rfl⟩
        · exact absurd hin hgone
        · exact ⟨hhead, hoom⟩
      · contradiction
      · contradiction
      · obtain ⟨rfl, -, -⟩ := Call.request.inj hcall
        exact absurd hmem hnot
    · intro hc
      -- a pending hash stays, unless it makes room
      have hstays : ∀ x ∈ r.hashes, x ∈ boundedAdd oom r.queueSize r.hashes h ∨
          r.MakesRoom (.request h (.ok false) oom) x := by
        intro x hx
        rcases mem_evict_or r.queueSize hx with hin | ⟨hfull, hhead⟩
        · exact .inl (mem_boundedAdd.mpr (.inl hin))
        · by_cases hmem : h ∈ r.hashes
          · obtain ⟨hfirst, hoom⟩ := hc hne rfl hmem hfull
            obtain rfl : x = h := Option.some.inj (hhead.symm.trans hfirst)
            exact .inl (mem_boundedAdd.mpr (.inr ⟨hoom, rfl⟩))
          · exact .inr ⟨h, _, oom, rfl, fun he => hmem (he ▸ hx), hmem, hfull⟩
      constructor
      · intro x hx
        rw [heq]
        rcases hx with hx | hx
        · exact (hstays x hx).imp .inl .inr
        · exact .inl (.inr hx)
      · intro x hx
        rw [heq]
        exact (hstays x hx).imp_right fun hroom => .inr (.inr hroom)
      · intro hash oom' hcall _ hok
        obtain ⟨rfl, -, rfl⟩ := Call.request.inj hcall
        exact holds_requested hne hok

theorem Inv.kept_iff (hr : r.Inv) (call : Call Hash) : r.Kept null call ↔ r.Careful null call := by
  cases call with
  | request h exist oom => exact hr.kept_request_iff
  | poll oom => exact hr.kept_poll_iff
  | clear h => exact ⟨fun _ => trivial, fun _ => kept_clear⟩

/-! ## Listing -/

omit [DecidableEq Hash] in
/-- A listing is right only while nothing is in the requested set. -/
theorem Inv.listed_iff (hr : r.Inv) : r.Listed ↔ r.requestedHashes = [] := by
  constructor
  · intro hl
    have hok : (pushAll ⟨true, [], []⟩ r.hashes).ok = true := pushAll_ok
    have hlist : r.getRequestedTransactions [] [] = pushAll ⟨true, [], []⟩ r.hashes := if_pos hok
    have hlen := (hl [] (by rw [hlist, hok])).length
    rw [hlist, pushAll_stack hok rfl, List.append_nil, List.length_reverse, size] at hlen
    exact List.length_eq_zero_iff.mp (by omega)
  · intro hnil fails hok
    unfold getRequestedTransactions at hok ⊢
    rw [hnil] at hok ⊢
    dsimp only [pushAll] at hok ⊢
    rw [ite_self] at hok ⊢
    rw [pushAll_stack hok rfl, List.append_nil]
    exact ⟨List.nodup_reverse.mpr hr.hashes, by simp, by simp [size, hnil]⟩

/-- The invariant of the runs whose listings are right. -/
structure Quiet (r : Requester Hash) : Prop extends r.Inv where
  requestedHashes : r.requestedHashes = []

/-- Only a poll that finds a hash puts one into the requested set. -/
theorem Quiet.requested_iff (hr : r.Quiet) (call : Call Hash) (hc : r.Careful null call) :
    (r.exec null call).requestedHashes = [] ↔ r.Unpolled call := by
  obtain ⟨hinv, hnil⟩ := hr
  cases call with
  | request h exist oom =>
    rcases exec_request null r h exist oom with ⟨-, heq⟩ | ⟨-, -, heq⟩
    · rw [heq, hnil]
      exact ⟨fun _ => trivial, fun _ => rfl⟩
    · rw [heq]
      exact ⟨fun _ => trivial, fun _ => hnil⟩
  | poll oom =>
    obtain ⟨hashes, requested, queueSize⟩ := r
    obtain rfl : requested = [] := hnil
    cases hashes with
    | nil => exact ⟨fun _ => rfl, fun _ => rfl⟩
    | cons y ys =>
      obtain rfl : oom = false := (hc y rfl).resolve_right (by simp)
      exact ⟨fun h => by contradiction, fun h => by contradiction⟩
  | clear h =>
    refine ⟨fun _ => trivial, fun _ => ?_⟩
    show hashSetRemove r.requestedHashes h = []
    rw [hnil]
    rfl

/-- **When requests are neither lost nor duplicated.** Along every run from an
empty requester the pending set is bounded and hashes are kept if and only if
every call is careful; and a listing has each hash once in every state as well if
and only if, besides, no call polls a hash. -/
theorem requests_iff (null : Hash) (queueSize : ℕ) (hq : 1 ≤ queueSize) (calls : List (Call Hash)) :
    (Upheld (exec null) (fun r => r.Bounded ∧ r.Listed) (Kept null) (init queueSize) calls ↔
      Meets (exec null) (fun r call => r.Careful null call ∧ r.Unpolled call) (init queueSize)
        calls) ∧
    (Upheld (exec null) Bounded (Kept null) (init queueSize) calls ↔
      Meets (exec null) (Careful null) (init queueSize) calls) := by
  constructor
  · refine upheld_iff_meets (I := Quiet) ?_ ?_ ?_ ⟨inv_init hq, rfl⟩
    · intro r hr
      exact ⟨hr.bounded, hr.listed_iff.mpr hr.requestedHashes⟩
    · intro r call hr
      rw [hr.kept_iff, (hr.exec call).listed_iff]
      constructor
      · intro ⟨hc, _, hnil⟩
        exact ⟨hc, (hr.requested_iff call hc).mp hnil⟩
      · intro ⟨hc, hu⟩
        exact ⟨hc, (hr.exec call).bounded, (hr.requested_iff call hc).mpr hu⟩
    · intro r call hr ⟨hc, hu⟩
      exact ⟨hr.exec call, (hr.requested_iff call hc).mpr hu⟩
  · refine upheld_iff_meets (I := Inv) (fun _ hr => hr.bounded) ?_ ?_ (inv_init hq)
    · intro r call hr
      rw [hr.kept_iff]
      exact ⟨And.left, fun hc => ⟨hc, (hr.exec call).bounded⟩⟩
    · intro r call hr _
      exact hr.exec call

/-- Three hashes are wanted in a queue of two, and one is cleared before it is wanted again. -/
theorem requests_iff_three :
    Upheld (exec 0) (fun r => r.Bounded ∧ r.Listed) (Kept 0) (init 2 : Requester ℕ)
      [.request 1 (.ok false) false, .request 2 (.ok false) false, .request 3 (.ok false) false,
        .clear 2, .request 2 (.ok false) false] :=
  (requests_iff 0 2 (by decide) _).1.mpr (by
    simp [Meets, exec, init, Careful, Unpolled, requestTransaction, clearRequest, boundedAdd, setAdd,
      evict, hashSetAdd, hashSetRemove])

/-- **Requests are hidden and forgotten.** After one poll the listing leaves out
the hash that was polled; a hash of a full queue is requested again, and the
oldest one is dropped for it. -/
theorem request_hidden :
    ¬ Upheld (exec 0) (fun r => r.Bounded ∧ r.Listed) (Kept 0) (init 5 : Requester ℕ)
        [.request 1 (.ok false) false, .poll false] ∧
      ¬ Upheld (exec 0) (fun r => r.Bounded ∧ r.Listed) (Kept 0) (init 2 : Requester ℕ)
        [.request 1 (.ok false) false, .request 2 (.ok false) false,
          .request 2 (.ok false) false] := by
  constructor
  · intro ⟨_, _, _, _, _, hlisted⟩
    exact absurd (hlisted [] (by decide)).length (by decide)
  · intro ⟨_, _, _, _, _, hkept, _⟩
    rcases hkept.pending 1 (by decide) with hin | ⟨_, hcall⟩ | hcall | ⟨_, _, _, hcall, _, hnot, _⟩
    · exact absurd hin (by decide)
    · contradiction
    · contradiction
    · obtain ⟨rfl, -, -⟩ := Call.request.inj hcall
      exact hnot (by decide)

end Requester

end Entangled
