import Entangled.Client.Transfers
import Entangled.Signing.Exact
/-!
# Whether a new address is new

An address is used if it has been spent from or has transactions. `is_used_address` asks the node
for both, and keeps the second answer only, so that the scans stop at the first address without
transactions (`FirstBare`), spent or not. `FirstFresh` is where they are to stop, and
`newAddresses_iff` says when that is the same.
-/

namespace Entangled

open Prog Trinary

variable {σ : Type}

/-- Spent from, or with transactions. -/
def ClientNode.Used (N : ClientNode) (address : List FlexTrit) : Prop :=
  N.spent address = true ∨ N.transactions address ≠ []

namespace Client

section

variable (K : Kerl σ) (E : Encoding) (N : ClientNode) (seed : List FlexTrit) (security : UInt8)

/-- The address of an index. -/
def addressAt (i : UInt64) : Option (List FlexTrit) :=
  iotaSignAddressGenFlexTrits K E seed i security.toNat

/-- The first index that is neither spent from nor has transactions, and its address. -/
def FirstFresh (i : UInt64) (a : List FlexTrit) : Prop :=
  addressAt K E seed security i = some a ∧ ¬N.Used a ∧
    ∀ j < i, ∀ b, addressAt K E seed security j = some b → N.Used b

/-- The first index for which the node answers that there are no transactions. -/
def FirstBare (i : UInt64) (a : List FlexTrit) : Prop :=
  addressAt K E seed security i = some a ∧ N.findTransactions a = .ok [] ∧
    ∀ j < i, ∀ b, addressAt K E seed security j = some b → N.findTransactions b ≠ .ok []

/-- **What the scans are for.** The address they end with is that of the first fresh index: the last
one of `iota_client_get_new_address`, the latest one of an account, the one a remainder is sent to,
and the one at which the search for inputs takes the addresses to be over. -/
structure NewAddresses : Prop where
  newAddress : ∀ rounds start out out',
    getNewAddress K E N seed rounds ⟨start, 0, security⟩ out = .ok () out' →
      ∃ i a, FirstFresh K E N seed security i a ∧ out'.getLast? = some a
  latestAddress : ∀ rounds account account',
    getAccountData K E N seed rounds security account = .ok () account' →
      ∃ i, FirstFresh K E N seed security i account'.latestAddress
  remainder : ∀ beyond rounds transfers inputs validateInputs timestamp now bundle a bundle',
    prepareTransfers K E N beyond seed rounds security transfers none inputs validateInputs
        timestamp now bundle = .ok (some a) bundle' →
      ∃ i, FirstFresh K E N seed security i a
  inputs : ∀ start threshold outInputs p ret s,
    Loop.Head (inputsTurn K E N seed ⟨start, 0, security⟩ threshold (0 - 1))
        (⟨0, .error .error, false⟩, outInputs) p →
      inputsTurn K E N seed ⟨start, 0, security⟩ threshold (0 - 1) p.1 p.2 =
        .ok (.done (.unused, ret)) s →
      ∃ a, FirstFresh K E N seed security p.1.addrIndex a

end

variable {K : Kerl σ} {E : Encoding} {N : ClientNode} {seed : List FlexTrit} {security : UInt8}
  {opt : AddressOpt} {i j : UInt64} {a : List FlexTrit}

/-! ## The flag -/

theorem ClientNode.answer_eq_ok {α : Type} {call : NodeCall} {x y : α} :
    N.answer call x = .ok y ↔ N.fault call = none ∧ x = y := by
  unfold ClientNode.answer
  cases N.fault call with
  | some e => simp
  | none => simp

/-- **What the flag comes to**: nothing of the first query is left. -/
theorem isUsedAddress_unused {isUsed withTxs : Bool} {txs : List (List FlexTrit)} :
    (isUsedAddress N a isUsed withTxs txs).unused = true ↔ N.findTransactions a = .ok [] := by
  unfold isUsedAddress findTransactionsByAddress
  cases N.findTransactions a with
  | error e => simp [AddressUse.unused]
  | ok hashes =>
    dsimp only
    by_cases hnil : hashes = []
    · simp [AddressUse.unused, hnil]
    · simp [AddressUse.unused, hnil]

theorem exists_addressAt (hs : 0 < security ∧ security ≤ 3) (i : UInt64) :
    ∃ a, addressAt K E seed security i = some a := by
  have hs' : 0 < security.toNat ∧ security.toNat ≤ 3 :=
    ⟨UInt8.lt_iff_toNat_lt.mp hs.1, UInt8.le_iff_toNat_le.mp hs.2⟩
  rw [addressAt, iotaSignAddressGenFlexTrits, iotaSignAddressGenTrits, if_pos hs']
  exact ⟨_, rfl⟩

/-- The indices before the next one, which may be 0 again. -/
theorem lt_or_eq_of_lt_add_one (h : j < i + 1) : j < i ∨ j = i := by
  rw [UInt64.lt_iff_toNat_lt, UInt64.toNat_add] at h
  rw [UInt64.lt_iff_toNat_lt, ← UInt64.toNat_inj]
  have hone : (1 : UInt64).toNat = 1 := rfl
  omega

/-! ## Before the first bare index -/

/-- No index before this one is bare. -/
def NoneBare (K : Kerl σ) (E : Encoding) (N : ClientNode) (seed : List FlexTrit)
    (security : UInt8) (i : UInt64) : Prop :=
  ∀ j < i, ∀ b, addressAt K E seed security j = some b → N.findTransactions b ≠ .ok []

theorem noneBare_zero : NoneBare K E N seed security 0 := by
  intro j hj
  rw [UInt64.lt_iff_toNat_lt] at hj
  exact absurd hj (Nat.not_lt_zero _)

theorem NoneBare.succ (h : NoneBare K E N seed security i)
    (ha : addressAt K E seed security i = some a) (hn : N.findTransactions a ≠ .ok []) :
    NoneBare K E N seed security (i + 1) := by
  intro j hj b hb
  rcases lt_or_eq_of_lt_add_one hj with hlt | rfl
  · exact h j hlt b hb
  · rw [ha] at hb
    exact Option.some.inj hb ▸ hn

/-! ## The scan for a new address -/

section

variable {l : UInt64 × Bool} {out out' : List (List FlexTrit)}
  {turn : Loop.Turn (UInt64 × Bool) Unit} {p : (UInt64 × Bool) × List (List FlexTrit)}

/-- **A turn** returns an address, and ends the scan if that is bare. -/
theorem latestTurn_eq (ha : addressAt K E seed opt.security l.1 = some a) :
    latestTurn K E N seed opt l out =
      .ok (if (isUsedAddress N a l.2 false []).unused then .done ()
        else .again (l.1 + 1, (isUsedAddress N a l.2 false []).isUsed)) (out ++ [a]) := by
  rw [addressAt] at ha
  unfold latestTurn
  rw [ha]
  dsimp only
  rw [update_bind]
  split
  · rfl
  · rfl

theorem latestTurn_eq_ok (h : latestTurn K E N seed opt l out = .ok turn out') :
    ∃ a, addressAt K E seed opt.security l.1 = some a ∧ out' = out ++ [a] ∧
      (turn = .done () ∧ N.findTransactions a = .ok [] ∨
        ∃ isUsed, turn = .again (l.1 + 1, isUsed) ∧ N.findTransactions a ≠ .ok []) := by
  cases ha : addressAt K E seed opt.security l.1 with
  | none =>
    rw [addressAt] at ha
    rw [latestTurn, ha] at h
    cases h
  | some a =>
    rw [latestTurn_eq ha] at h
    refine ⟨a, rfl, (EStateM.Result.ok.inj h).2.symm, ?_⟩
    have hturn := (EStateM.Result.ok.inj h).1
    by_cases hbare : N.findTransactions a = .ok []
    · rw [if_pos (isUsedAddress_unused.mpr hbare)] at hturn
      exact .inl ⟨hturn.symm, hbare⟩
    · rw [if_neg fun hu => hbare (isUsedAddress_unused.mp hu)] at hturn
      exact .inr ⟨_, hturn.symm, hbare⟩

theorem noneBare_latest
    (h : Loop.Head (latestTurn K E N seed opt) ((0, false), out) p) :
    NoneBare K E N seed opt.security p.1.1 := by
  refine h.invariant (I := fun p => NoneBare K E N seed opt.security p.1.1) noneBare_zero
    fun p q _ hp hpq => ?_
  obtain ⟨a, ha, -, hturn⟩ := latestTurn_eq_ok hpq
  rcases hturn with ⟨hturn, -⟩ | ⟨isUsed, hturn, hn⟩
  · cases hturn
  · have hq : q.1 = (p.1.1 + 1, isUsed) := by injection hturn
    rw [hq]
    exact hp.succ ha hn

/-- **What `iota_client_get_new_address` ends with**: the first bare index. -/
theorem getNewAddress_firstBare {rounds : ℕ} {start : UInt64}
    (h : getNewAddress K E N seed rounds ⟨start, 0, security⟩ out = .ok () out') :
    ∃ i a, FirstBare K E N seed security i a ∧ out'.getLast? = some a := by
  unfold getNewAddress at h
  split at h
  · cases h
  · rw [if_neg (by simp)] at h
    obtain ⟨p, hp, hdone⟩ := Loop.run_eq_ok h
    obtain ⟨a, ha, hout, hturn⟩ := latestTurn_eq_ok hdone
    rcases hturn with ⟨-, hbare⟩ | ⟨isUsed, hturn, -⟩
    · exact ⟨p.1.1, a, ⟨ha, hbare, noneBare_latest hp⟩, by rw [hout]; exact List.getLast?_concat⟩
    · cases hturn

/-- **On the way to a bare index** a turn ends the scan there, or goes on to the next one. -/
theorem latest_step (hs : 0 < security ∧ security ≤ 3) (h : FirstBare K E N seed security i a)
    (start : UInt64) (p : (UInt64 × Bool) × List (List FlexTrit)) (hp : p.1.1.toNat ≤ i.toNat) :
    (∃ u out', latestTurn K E N seed ⟨start, 0, security⟩ p.1 p.2 = .ok (.done u) out' ∧
        out'.getLast? = some a) ∨
      ∃ q, Loop.Iter (latestTurn K E N seed ⟨start, 0, security⟩) p q ∧
        q.1.1.toNat ≤ i.toNat ∧ i.toNat - q.1.1.toNat < i.toNat - p.1.1.toNat := by
  obtain ⟨b, hb⟩ : ∃ b, addressAt K E seed security p.1.1 = some b := exists_addressAt hs p.1.1
  have hturn : latestTurn K E N seed ⟨start, 0, security⟩ p.1 p.2 = _ := latestTurn_eq hb
  -- at the bare index the scan ends, and before it there is no wrap around
  by_cases hpi : p.1.1.toNat = i.toNat
  · obtain rfl : b = a := by
      rw [UInt64.toNat_inj.mp hpi] at hb
      exact Option.some.inj (hb.symm.trans h.1)
    rw [if_pos (isUsedAddress_unused.mpr h.2.1)] at hturn
    exact .inl ⟨(), _, hturn, List.getLast?_concat⟩
  · have hlt : p.1.1 < i := UInt64.lt_iff_toNat_lt.mpr (by omega)
    have hnext : (p.1.1 + 1).toNat = p.1.1.toNat + 1 := by
      have hi := i.toNat_lt
      rw [UInt64.toNat_add]
      have hone : (1 : UInt64).toNat = 1 := rfl
      omega
    rw [if_neg fun hu => h.2.2 p.1.1 hlt b hb (isUsedAddress_unused.mp hu)] at hturn
    refine .inr ⟨((p.1.1 + 1, _), _), hturn, ?_, ?_⟩
    · dsimp only
      omega
    · dsimp only
      omega

/-- It comes to that index. -/
theorem getNewAddress_of_firstBare (hs : 0 < security ∧ security ≤ 3)
    (h : FirstBare K E N seed security i a) (start : UInt64) :
    ∃ rounds out', getNewAddress K E N seed rounds ⟨start, 0, security⟩ [] = .ok () out' ∧
      out'.getLast? = some a := by
  have hsecurity : ¬(security = 0 ∨ 3 < security) := by
    rintro (rfl | hgt)
    · exact absurd hs.1 (by decide)
    · exact absurd hs.2 (UInt8.not_le.mpr hgt)
  obtain ⟨n, hn⟩ : ∃ n, i.toNat < n := ⟨_, Nat.lt_succ_self _⟩
  obtain ⟨u, out', hrun, hlast⟩ : ∃ u out', Loop.run (latestTurn K E N seed ⟨start, 0, security⟩)
      .outOfRounds n (0, false) [] = .ok u out' ∧ out'.getLast? = some a :=
    Loop.run_returns (p := ((0, false), [])) (fun p => i.toNat - p.1.1.toNat)
      (latest_step hs h start) (Nat.zero_le _) (lt_of_le_of_lt (Nat.sub_le _ _) hn)
  refine ⟨n, out', ?_, hlast⟩
  unfold getNewAddress
  rw [if_neg hsecurity, if_neg (by simp)]
  exact hrun

end

/-! ## The other scans -/

section

variable {account account' : AccountData} {p : UInt64 × AccountData}
  {turn : Loop.Turn UInt64 Unit}

theorem accountTurn_eq_ok (h : accountTurn K E N seed security i account = .ok turn account') :
    ∃ a, addressAt K E seed security i = some a ∧
      (turn = .done () ∧ N.findTransactions a = .ok [] ∧ account'.latestAddress = a ∨
        turn = .again (i + 1) ∧ N.findTransactions a ≠ .ok []) := by
  unfold accountTurn at h
  cases ha : addressAt K E seed security i with
  | none =>
    rw [addressAt] at ha
    rw [ha] at h
    cases h
  | some a =>
    rw [addressAt] at ha
    rw [ha] at h
    refine ⟨a, rfl, ?_⟩
    dsimp only at h
    rw [gets_bind, update_bind] at h
    have hflag : (isUsedAddress N a false true account.transactions).unused = true ↔
        N.findTransactions a = .ok [] := isUsedAddress_unused
    unfold AddressUse.unused at hflag
    dsimp only [id] at h
    cases hret : (isUsedAddress N a false true account.transactions).ret with
    | error e =>
      rw [hret] at h
      cases h
    | ok u =>
      rw [hret] at h hflag
      dsimp only at h hflag
      cases hused : (isUsedAddress N a false true account.transactions).isUsed with
      | true =>
        rw [if_pos hused] at h
        rw [hused] at hflag
        cases h
        refine .inr ⟨rfl, fun hbare => ?_⟩
        exact absurd (hflag.mpr hbare) (by decide)
      | false =>
        rw [if_neg (by rw [hused]; decide)] at h
        rw [hused] at hflag
        cases h
        exact .inl ⟨rfl, hflag.mp rfl, rfl⟩

theorem noneBare_account
    (h : Loop.Head (accountTurn K E N seed security) (0, account) p) :
    NoneBare K E N seed security p.1 := by
  refine h.invariant (I := fun p => NoneBare K E N seed security p.1) noneBare_zero
    fun p q _ hp hpq => ?_
  obtain ⟨a, ha, hturn⟩ := accountTurn_eq_ok hpq
  rcases hturn with ⟨hturn, -⟩ | ⟨hturn, hn⟩
  · cases hturn
  · have hq : q.1 = p.1 + 1 := by injection hturn
    rw [hq]
    exact hp.succ ha hn

/-- The latest address of an account is that of the first bare index. -/
theorem getAccountData_firstBare {rounds : ℕ}
    (h : getAccountData K E N seed rounds security account = .ok () account') :
    ∃ i, FirstBare K E N seed security i account'.latestAddress := by
  unfold getAccountData at h
  split at h
  · cases h
  · obtain ⟨u, account₁, hrun, hrest⟩ := bind_eq_ok.mp h
    obtain ⟨p, hp, hdone⟩ := Loop.run_eq_ok hrun
    obtain ⟨a, ha, hturn⟩ := accountTurn_eq_ok hdone
    rcases hturn with ⟨-, hbare, hlatest⟩ | ⟨hturn, -⟩
    · -- the balances come after the scan and leave the address alone
      have hkeep : account'.latestAddress = account₁.latestAddress := by
        rw [gets_bind] at hrest
        dsimp only [id] at hrest
        by_cases hnil : account₁.addresses = []
        · rw [if_pos hnil] at hrest
          cases hrest
          rfl
        · rw [if_neg hnil, update_bind] at hrest
          cases hbalances : N.getBalances account₁.addresses with
          | error e =>
            rw [hbalances] at hrest
            cases hrest
          | ok balances =>
            rw [hbalances] at hrest
            cases hrest
            rfl
      rw [hkeep, hlatest]
      exact ⟨p.1, ha, hbare, noneBare_account hp⟩
    · cases hturn

end

section

variable {threshold : Int64} {addrIndexEnd : UInt64} {l : InputsLocals}
  {outInputs outInputs' : ClientInputs} {p : InputsLocals × ClientInputs}
  {turn : Loop.Turn InputsLocals (InputsEnd × Except ClientRetcode Unit)}

theorem inputsTurn_eq_ok (htotal : opt.total = 0)
    (h : inputsTurn K E N seed opt threshold addrIndexEnd l outInputs = .ok turn outInputs') :
    (∃ e ret, turn = .done (e, ret) ∧ e ≠ .unused) ∨
      ∃ a, addressAt K E seed opt.security l.addrIndex = some a ∧
        (turn = .done (.unused, .ok ()) ∧ N.findTransactions a = .ok [] ∨
          ∃ ret isUsed, turn = .again ⟨l.addrIndex + 1, ret, isUsed⟩ ∧
            N.findTransactions a ≠ .ok []) := by
  unfold inputsTurn at h
  by_cases hend : l.addrIndex < addrIndexEnd
  · rw [if_pos hend] at h
    cases ha : addressAt K E seed opt.security l.addrIndex with
    | none =>
      rw [addressAt] at ha
      rw [ha] at h
      cases h
    | some a =>
      rw [addressAt] at ha
      rw [ha] at h
      dsimp only at h
      by_cases hbare : N.findTransactions a = .ok []
      · rw [if_pos ⟨htotal, isUsedAddress_unused.mpr hbare⟩] at h
        cases h
        exact .inr ⟨a, rfl, .inl ⟨rfl, hbare⟩⟩
      · rw [if_neg fun hu => hbare (isUsedAddress_unused.mp hu.2)] at h
        cases hbalances : N.getBalances [a] with
        | error e =>
          rw [hbalances] at h
          cases h
          exact .inr ⟨a, rfl, .inr ⟨_, _, rfl, hbare⟩⟩
        | ok balances =>
          rw [hbalances] at h
          dsimp only at h
          rw [gets_bind] at h
          dsimp only [id] at h
          by_cases hlt : outInputs.totalBalance < threshold
          · rw [if_pos hlt] at h
            cases h
            exact .inr ⟨a, rfl, .inr ⟨_, _, rfl, hbare⟩⟩
          · rw [if_neg hlt] at h
            cases h
            exact .inl ⟨_, _, rfl, by decide⟩
  · rw [if_neg hend] at h
    cases h
    exact .inl ⟨_, _, rfl, by decide⟩

theorem noneBare_inputs {ret : Except ClientRetcode Unit} {isUsed : Bool} (htotal : opt.total = 0)
    (h : Loop.Head (inputsTurn K E N seed opt threshold addrIndexEnd)
      (⟨0, ret, isUsed⟩, outInputs) p) : NoneBare K E N seed opt.security p.1.addrIndex := by
  refine h.invariant (I := fun p => NoneBare K E N seed opt.security p.1.addrIndex) noneBare_zero
    fun p q _ hp hpq => ?_
  rcases inputsTurn_eq_ok htotal hpq with ⟨e, ret, hturn, -⟩ | ⟨a, ha, hturn⟩
  · cases hturn
  · rcases hturn with ⟨hturn, -⟩ | ⟨ret, isUsed, hturn, hn⟩
    · cases hturn
    · have hq : q.1 = ⟨p.1.addrIndex + 1, ret, isUsed⟩ := by injection hturn
      rw [hq]
      exact hp.succ ha hn

/-- The search for inputs takes the addresses to be over at the first bare index. -/
theorem inputs_firstBare {start : UInt64} {ret : Except ClientRetcode Unit}
    (hp : Loop.Head (inputsTurn K E N seed ⟨start, 0, security⟩ threshold addrIndexEnd)
      (⟨0, .error .error, false⟩, outInputs) p)
    (hdone : inputsTurn K E N seed ⟨start, 0, security⟩ threshold addrIndexEnd p.1 p.2 =
      .ok (.done (.unused, ret)) outInputs') :
    ∃ a, FirstBare K E N seed security p.1.addrIndex a := by
  rcases inputsTurn_eq_ok rfl hdone with ⟨e, ret, hturn, hne⟩ | ⟨a, ha, hturn⟩
  · cases hturn
    exact absurd rfl hne
  · rcases hturn with ⟨-, hbare⟩ | ⟨ret, isUsed, hturn, -⟩
    · exact ⟨a, ha, hbare, noneBare_inputs rfl hp⟩
    · cases hturn

end

/-! ## The remainder -/

section

variable {beyond tag : List FlexTrit} {rounds : CallRounds} {inputs left : List ClientInput}
  {bundle bundle' : BundleTransactions} {timestamp : UInt64} {total : Int64}

/-- A remainder without an address of its own goes to the first bare index. -/
theorem remainderAddress_firstBare
    (h : remainderAddress K E N seed rounds security none bundle = .ok a bundle') :
    ∃ i, FirstBare K E N seed security i a := by
  unfold remainderAddress at h
  dsimp only at h
  cases hnew : getNewAddress K E N seed rounds.scan ⟨0, 0, security⟩ [] with
  | error e out =>
    rw [hnew] at h
    cases h
  | ok u out =>
    rw [hnew] at h
    dsimp only at h
    obtain ⟨i, b, hbare, hlast⟩ := getNewAddress_firstBare hnew
    rw [hlast] at h
    cases h
    exact ⟨i, hbare⟩

theorem addRemainderLoop_firstBare
    (h : addRemainderLoop K E N beyond seed rounds security inputs tag none timestamp left total
      bundle = .ok (some a) bundle') : ∃ i, FirstBare K E N seed security i a := by
  induction left generalizing total bundle with
  | nil => cases h
  | cons input left ih =>
    rw [addRemainderLoop] at h
    by_cases hzero : input.balance = 0
    · rw [if_pos hzero] at h
      exact ih h
    · rw [if_neg hzero] at h
      obtain ⟨u, b₁, -, h⟩ := bind_eq_ok.mp h
      by_cases hle : total ≤ input.balance
      · rw [if_pos hle] at h
        by_cases hpos : 0 < input.balance - total
        · rw [if_pos hpos] at h
          obtain ⟨address, b₂, hnew, h⟩ := bind_eq_ok.mp h
          obtain ⟨v, b₃, -, h⟩ := bind_eq_ok.mp h
          obtain ⟨w, b₄, -, h⟩ := bind_eq_ok.mp h
          cases h
          exact remainderAddress_firstBare hnew
        · rw [if_neg hpos] at h
          obtain ⟨v, b₂, -, h⟩ := bind_eq_ok.mp h
          cases h
      · rw [if_neg hle] at h
        exact ih h

/-- **Where the remainder goes** that no address was named for. -/
theorem prepareTransfers_firstBare {transfers : List Transfer} {validateInputs : Bool}
    {now : UInt64}
    (h : prepareTransfers K E N beyond seed rounds security transfers none inputs validateInputs
      timestamp now bundle = .ok (some a) bundle') : ∃ i, FirstBare K E N seed security i a := by
  obtain ⟨u, b₁, -, h⟩ := bind_eq_ok.mp h
  by_cases htotal : transfers.foldl (fun total t => total + t.value) 0 ≠ 0
  · rw [if_pos htotal] at h
    obtain ⟨sources, b₂, -, h⟩ := bind_eq_ok.mp h
    unfold addRemainder at h
    by_cases hnil : sources = []
    · rw [if_pos hnil] at h
      cases h
    · rw [if_neg hnil] at h
      exact addRemainderLoop_firstBare h
  · rw [if_neg htotal] at h
    obtain ⟨v, b₂, -, h⟩ := bind_eq_ok.mp h
    cases h

end

/-! ## When the addresses are new -/

theorem FirstBare.fresh (h : FirstBare K E N seed security i a) (hspent : N.spent a = false)
    (hfailed : ∀ j < i, ∀ b e, addressAt K E seed security j = some b →
      N.findTransactions b = .error e → N.Used b) : FirstFresh K E N seed security i a := by
  refine ⟨h.1, ?_, fun j hj b hb => ?_⟩
  · rintro (hs | ht)
    · rw [hspent] at hs
      cases hs
    · exact ht (ClientNode.answer_eq_ok.mp h.2.1).2
  · cases hfind : N.findTransactions b with
    | error e => exact hfailed j hj b e hb hfind
    | ok hashes =>
      obtain ⟨-, heq⟩ := ClientNode.answer_eq_ok.mp hfind
      refine .inr fun hnil => h.2.2 j hj b hb ?_
      rw [hfind, ← heq, hnil]

/-- **When a new address is new**: the first index for which the node answers that there are no
transactions has not been spent from, and those before it for which it gave no answer are used. -/
theorem newAddresses_iff (hs : 0 < security ∧ security ≤ 3) :
    NewAddresses K E N seed security ↔
      ∀ i a, FirstBare K E N seed security i a → N.spent a = false ∧
        ∀ j < i, ∀ b e, addressAt K E seed security j = some b →
          N.findTransactions b = .error e → N.Used b := by
  constructor
  · intro hnew i a hbare
    obtain ⟨rounds, out', hrun, hlast⟩ := getNewAddress_of_firstBare hs hbare 0
    obtain ⟨k, b, hfresh, hlast'⟩ := hnew.newAddress rounds 0 [] out' hrun
    obtain rfl : a = b := Option.some.inj (hlast.symm.trans hlast')
    -- the index behind the fresh address is not before the bare one
    have hki : ¬k < i := fun hlt => hbare.2.2 k hlt a hfresh.1 hbare.2.1
    refine ⟨?_, fun j hj b e hb _ => ?_⟩
    · cases hspent : N.spent a with
      | false => rfl
      | true => exact absurd (.inl hspent) hfresh.2.1
    · rw [UInt64.lt_iff_toNat_lt] at hki hj
      exact hfresh.2.2 j (UInt64.lt_iff_toNat_lt.mpr (by omega)) b hb
  · intro hcond
    -- all four end at the first bare index, and that is fresh
    have hfresh : ∀ i a, FirstBare K E N seed security i a →
        FirstFresh K E N seed security i a := fun i a hbare =>
      hbare.fresh (hcond i a hbare).1 (hcond i a hbare).2
    refine ⟨?_, ?_, ?_, ?_⟩
    · intro rounds start out out' h
      obtain ⟨i, a, hbare, hlast⟩ := getNewAddress_firstBare h
      exact ⟨i, a, hfresh i a hbare, hlast⟩
    · intro rounds account account' h
      obtain ⟨i, hbare⟩ := getAccountData_firstBare h
      exact ⟨i, hfresh i _ hbare⟩
    · intro beyond rounds transfers inputs validateInputs timestamp now bundle a bundle' h
      obtain ⟨i, hbare⟩ := prepareTransfers_firstBare h
      exact ⟨i, hfresh i a hbare⟩
    · intro start threshold outInputs p ret s hp hdone
      obtain ⟨a, hbare⟩ := inputs_firstBare hp hdone
      exact ⟨a, hfresh _ a hbare⟩

/-! ## An address whose transactions are gone -/

/-- A node after a local snapshot: one address is spent, and no transaction is left. -/
def prunedNode (a : List FlexTrit) : ClientNode where
  spent b := decide (b = a)
  transactions _ := []
  balance _ := 0
  fault _ := none

theorem spent_pruned : (prunedNode a).spent a = true := decide_eq_true rfl

theorem firstBare_pruned (ha : addressAt K E seed security 0 = some a) :
    FirstBare K E (prunedNode a) seed security 0 a :=
  ⟨ha, rfl, noneBare_zero⟩

theorem not_newAddresses_pruned (hs : 0 < security ∧ security ≤ 3)
    (ha : addressAt K E seed security 0 = some a) :
    ¬NewAddresses K E (prunedNode a) seed security := by
  intro hnew
  obtain ⟨rounds, out', hrun, hlast⟩ := getNewAddress_of_firstBare hs (firstBare_pruned ha) 0
  obtain ⟨k, b, hfresh, hlast'⟩ := hnew.newAddress rounds 0 [] out' hrun
  obtain rfl : a = b := Option.some.inj (hlast.symm.trans hlast')
  exact hfresh.2.1 (.inl spent_pruned)

/-- The criterion on that node. -/
theorem newAddresses_pruned :
    NewAddresses nullKerl .three (prunedNode nineAddress) [] 2 ↔
      ∀ i a, FirstBare nullKerl .three (prunedNode nineAddress) [] 2 i a →
        (prunedNode nineAddress).spent a = false ∧
        ∀ j < i, ∀ b e, addressAt nullKerl .three [] 2 j = some b →
          (prunedNode nineAddress).findTransactions b = .error e →
            (prunedNode nineAddress).Used b :=
  newAddresses_iff (by decide)

/-- **A spent address is given out as a new one**, whatever the seed, once its transactions are
gone. -/
theorem prunedAddress_reused :
    (∃ rounds, getNewAddress nullKerl .three (prunedNode nineAddress) [] rounds
      ⟨0, 0, 2⟩ [] = .ok () [nineAddress]) ∧
    (prunedNode nineAddress).spent nineAddress = true ∧
    ¬NewAddresses nullKerl .three (prunedNode nineAddress) [] 2 ∧
    ∀ {τ : Type} (K : Kerl τ) (E : Encoding) (seed a : List FlexTrit),
      addressAt K E seed 2 0 = some a → ¬NewAddresses K E (prunedNode a) seed 2 := by
  have ha : addressAt nullKerl .three [] 2 0 = some nineAddress :=
    addressGen_nullKerl .three [] 0 (by decide)
  refine ⟨⟨1, ?_⟩, spent_pruned, not_newAddresses_pruned (by decide) ha,
    fun K E seed a ha => not_newAddresses_pruned (by decide) ha⟩
  have hturn : latestTurn nullKerl .three (prunedNode nineAddress) [] ⟨0, 0, 2⟩
      (0, false) [] = _ := latestTurn_eq ha
  rw [if_pos (isUsedAddress_unused.mpr rfl)] at hturn
  unfold getNewAddress
  rw [if_neg (by decide), if_neg (by simp)]
  exact Loop.run_of_done hturn 0

end Client

end Entangled
