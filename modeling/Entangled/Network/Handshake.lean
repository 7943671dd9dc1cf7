import Entangled.Network.Router
import Mathlib.Data.Nat.Bitwise
/-!
# The handshake of two nodes

The first packet of a connection announces the protocol versions a node
supports, one bit each and eight to a byte, the higher ones in the later bytes
and bits. A version is counted from one, so that zero can mean that there is
none. `handshake_supported_version` answers with the highest version both sides
support; where there is none, with minus the highest one of the peer, and that
is no negative number when the peer supports none at all.
-/

namespace Entangled

namespace Handshake

open Router

variable {own versions : List UInt8} {b n v : ℕ} {p : ℕ → Prop}

/-! ## Versions -/

/-- The highest bit of a byte, counted from one: what `n` rounds of the loop over
the bits come to, where a later bit overwrites an earlier one. -/
def highestBit (b : ℕ) : ℕ → ℕ
  | 0 => 0
  | j + 1 => if b.testBit j then j + 1 else highestBit b j

/-- What `n` rounds of the loop over the bytes come to. -/
def highestSupportedVersion (own versions : List UInt8) : ℕ → ℕ
  | 0 => 0
  | i + 1 =>
    let supported := versions.getD i 0 &&& own.getD i 0
    if supported = 0 then highestSupportedVersion own versions i
    else highestBit supported.toNat 8 + i * 8

/-- `handshake_supported_version`; `none` is the read before an empty list. -/
def handshakeSupportedVersion (own versions : List UInt8) : Option ℤ :=
  let highest := highestSupportedVersion own versions (min own.length versions.length)
  if highest = 0 then
    match versions.getLast? with
    | none => none
    | some last => some (-((highestBit last.toNat 8 + (versions.length - 1) * 8 : ℕ) : ℤ))
  else some highest

/-- Version `v` is among those announced. -/
def Supports (versions : List UInt8) (v : ℕ) : Prop :=
  1 ≤ v ∧ (versions.getD ((v - 1) / 8) 0).toNat.testBit ((v - 1) % 8) = true

/-- Both sides support version `v`. -/
def Common (own versions : List UInt8) (v : ℕ) : Prop := Supports own v ∧ Supports versions v

/-- The highest number with a property, or zero where there is none. -/
def IsHighest (p : ℕ → Prop) (n : ℕ) : Prop :=
  n = 0 ∧ (∀ v, ¬ p v) ∨ p n ∧ ∀ v, p v → v ≤ n

theorem isHighest_highestBit (b n : ℕ) :
    IsHighest (fun v => 1 ≤ v ∧ v ≤ n ∧ b.testBit (v - 1) = true) (highestBit b n) := by
  induction n with
  | zero => exact .inl ⟨rfl, fun v ⟨h₁, h₂, _⟩ => by omega⟩
  | succ n ih =>
    rw [highestBit]
    split
    · rename_i hbit
      exact .inr ⟨⟨by omega, le_rfl, hbit⟩, fun v hv => hv.2.1⟩
    · rename_i hbit
      have hiff : ∀ v, (1 ≤ v ∧ v ≤ n + 1 ∧ b.testBit (v - 1) = true) ↔
          (1 ≤ v ∧ v ≤ n ∧ b.testBit (v - 1) = true) := by
        intro v
        constructor
        · intro ⟨h₁, h₂, h₃⟩
          refine ⟨h₁, ?_, h₃⟩
          by_contra hlt
          obtain rfl : v = n + 1 := by omega
          exact hbit h₃
        · intro ⟨h₁, h₂, h₃⟩
          exact ⟨h₁, by omega, h₃⟩
      simpa only [IsHighest, hiff] using ih

/-- A byte that is not zero has a highest bit. -/
theorem highestBit_of_ne {b : UInt8} (hb : b ≠ 0) :
    ∃ j < 8, highestBit b.toNat 8 = j + 1 ∧ b.toNat.testBit j = true ∧
      ∀ k < 8, b.toNat.testBit k = true → k ≤ j := by
  rcases isHighest_highestBit b.toNat 8 with ⟨-, hnone⟩ | ⟨⟨h₁, h₂, h₃⟩, hmax⟩
  · refine absurd (UInt8.toNat_inj.mp (Nat.eq_of_testBit_eq fun j => ?_)) hb
    rcases Nat.lt_or_ge j 8 with hj | hj
    · simpa using hnone (j + 1) ∘ fun hbit => ⟨by omega, hj, hbit⟩
    · rw [Nat.testBit_lt_two_pow (b.toNat_lt.trans_le (Nat.pow_le_pow_right (by omega) hj))]
      simp
  · refine ⟨highestBit b.toNat 8 - 1, by omega, by omega, h₃, ?_⟩
    intro k hk hbit
    have hle := hmax (k + 1) ⟨by omega, hk, hbit⟩
    omega

theorem Supports.lt_length (h : Supports versions v) : (v - 1) / 8 < versions.length := by
  by_contra hge
  have hbit := h.2
  rw [List.getD_eq_default _ _ (not_lt.mp hge)] at hbit
  simp at hbit

/-- A common version is a bit of the byte that is formed. -/
theorem common_iff : Common own versions v ↔ 1 ≤ v ∧
    (versions.getD ((v - 1) / 8) 0 &&& own.getD ((v - 1) / 8) 0).toNat.testBit ((v - 1) % 8) =
      true := by
  rw [Common, Supports, Supports, UInt8.toNat_and, Nat.testBit_and, Bool.and_eq_true]
  constructor
  · intro ⟨h₁, h₂⟩
    exact ⟨h₁.1, h₂.2, h₁.2⟩
  · intro ⟨h₁, h₂, h₃⟩
    exact ⟨⟨h₁, h₃⟩, h₁, h₂⟩

/-- **The loop finds the highest common version** of the bytes it has seen. -/
theorem isHighest_highestSupportedVersion (own versions : List UInt8) (n : ℕ) :
    IsHighest (fun v => Common own versions v ∧ (v - 1) / 8 < n)
      (highestSupportedVersion own versions n) := by
  induction n with
  | zero => exact .inl ⟨rfl, fun v hv => by omega⟩
  | succ n ih =>
    rw [highestSupportedVersion]
    split
    · rename_i hzero
      -- no version of this byte is common, so the byte changes nothing
      have hiff : ∀ v, (Common own versions v ∧ (v - 1) / 8 < n + 1) ↔
          (Common own versions v ∧ (v - 1) / 8 < n) := by
        intro v
        constructor
        · intro ⟨hc, hlt⟩
          refine ⟨hc, ?_⟩
          by_contra hge
          have hbyte : (v - 1) / 8 = n := by omega
          have hbit := (common_iff.mp hc).2
          rw [hbyte, hzero] at hbit
          simp at hbit
        · intro ⟨hc, hlt⟩
          exact ⟨hc, by omega⟩
      simpa only [IsHighest, hiff] using ih
    · rename_i hne
      obtain ⟨j, hj, heq, hbit, hmax⟩ := highestBit_of_ne hne
      rw [heq]
      have hdiv : (j + 1 + n * 8 - 1) / 8 = n := by omega
      have hmod : (j + 1 + n * 8 - 1) % 8 = j := by omega
      refine .inr ⟨⟨common_iff.mpr ⟨by omega, ?_⟩, by omega⟩, ?_⟩
      · rwa [hdiv, hmod]
      · intro v ⟨hc, hlt⟩
        obtain ⟨hv, hvbit⟩ := common_iff.mp hc
        rcases Nat.lt_or_ge ((v - 1) / 8) n with hbelow | hge
        · omega
        · have hbyte : (v - 1) / 8 = n := by omega
          rw [hbyte] at hvbit
          have hle := hmax _ (Nat.mod_lt _ (by omega)) hvbit
          omega

theorem isHighest_common (own versions : List UInt8) : IsHighest (Common own versions)
    (highestSupportedVersion own versions (min own.length versions.length)) := by
  have hiff : ∀ v, (Common own versions v ∧ (v - 1) / 8 < min own.length versions.length) ↔
      Common own versions v := by
    intro v
    refine ⟨And.left, fun hc => ⟨hc, ?_⟩⟩
    exact lt_min hc.1.lt_length hc.2.lt_length
  have h := isHighest_highestSupportedVersion own versions (min own.length versions.length)
  simpa only [IsHighest, hiff] using h

/-! ## The answer -/

/-- The answer is the highest common version, or negative where there is none. -/
def Answers (own versions : List UInt8) (answer : ℤ) : Prop :=
  (∃ v : ℕ, answer = v ∧ Common own versions v ∧ ∀ w, Common own versions w → w ≤ v) ∨
    answer < 0 ∧ ∀ v, ¬ Common own versions v

theorem not_common_zero : ¬ Common own versions 0 := fun h => absurd h.1.1 (by omega)

/-- Where no version is common the loop finds none. -/
theorem highestSupportedVersion_eq_zero (h : ∀ v, ¬ Common own versions v) :
    highestSupportedVersion own versions (min own.length versions.length) = 0 := by
  rcases isHighest_common own versions with ⟨hzero, -⟩ | ⟨hc, -⟩
  · exact hzero
  · exact absurd hc (h _)

/-- A list with a common version is answered with the highest one. -/
theorem answers_of_common (h : Common own versions v) :
    ∃ answer, handshakeSupportedVersion own versions = some answer ∧
      Answers own versions answer := by
  rcases isHighest_common own versions with ⟨-, hnone⟩ | ⟨hc, hmax⟩
  · exact absurd h (hnone v)
  · refine ⟨_, ?_, .inl ⟨_, rfl, hc, hmax⟩⟩
    rw [handshakeSupportedVersion, if_neg]
    intro hzero
    rw [hzero] at hc
    exact not_common_zero hc

/-- A list without one is answered with what its last byte says of the peer. -/
theorem handshakeSupportedVersion_of_none (h : ∀ v, ¬ Common own versions v) :
    handshakeSupportedVersion own versions = versions.getLast?.map fun last =>
      -((highestBit last.toNat 8 + (versions.length - 1) * 8 : ℕ) : ℤ) := by
  rw [handshakeSupportedVersion, if_pos (highestSupportedVersion_eq_zero h)]
  cases versions.getLast? with
  | none => rfl
  | some last => rfl

theorem not_common_of_zero : ¬ Common own [0] v := by
  intro h
  have hlt := h.2.lt_length
  have hbit := h.2.2
  rw [show (v - 1) / 8 = 0 by simpa using hlt] at hbit
  simp at hbit

/-- **The answer is right, except for a peer that supports nothing** and announces
one byte, or none. -/
theorem answers_iff :
    (∃ answer, handshakeSupportedVersion own versions = some answer ∧
      Answers own versions answer) ↔ versions ≠ [] ∧ versions ≠ [0] := by
  constructor
  · intro ⟨answer, heq, hans⟩
    constructor
    · rintro rfl
      have hnone : ∀ v, ¬ Common own [] v := fun v hc => absurd hc.2.lt_length (by simp)
      rw [handshakeSupportedVersion_of_none hnone] at heq
      simp at heq
    · rintro rfl
      rw [handshakeSupportedVersion_of_none fun v => not_common_of_zero] at heq
      obtain rfl : 0 = answer := Option.some.inj heq
      rcases hans with ⟨v, -, hc, -⟩ | ⟨hneg, -⟩
      · exact not_common_of_zero hc
      · omega
  · intro ⟨hne, hzero⟩
    by_cases hc : ∃ v, Common own versions v
    · obtain ⟨v, hv⟩ := hc
      exact answers_of_common hv
    · have hnone : ∀ v, ¬ Common own versions v := not_exists.mp hc
      have hlast := List.getLast?_eq_some_getLast hne
      refine ⟨_, by rw [handshakeSupportedVersion_of_none hnone, hlast]; rfl, .inr ⟨?_, hnone⟩⟩
      show -((highestBit (versions.getLast hne).toNat 8 + (versions.length - 1) * 8 : ℕ) : ℤ) < 0
      rcases Nat.lt_or_ge 1 versions.length with hlong | hshort
      · omega
      · -- one byte, and it is not zero
        obtain ⟨b, rfl⟩ : ∃ b, versions = [b] :=
          List.length_eq_one_iff.mp (by have := List.length_pos_iff.mpr hne; omega)
        have hb : b ≠ 0 := fun h => hzero (by rw [h])
        obtain ⟨j, -, hbit, -⟩ := highestBit_of_ne hb
        rw [List.getLast_singleton, hbit]
        omega

/-! ## Reading the handshake -/

/-- `HANDSHAKE_COORDINATOR_ADDRESS_BYTES_LENGTH`. -/
def handshakeCoordinatorAddressBytesLength : ℕ := 49

/-- `HANDSHAKE_MIN_BYTES_LENGTH`: port, timestamp, coordinator address, mwm and one byte of
versions. -/
def handshakeMinBytesLength : ℕ := 2 + 8 + handshakeCoordinatorAddressBytesLength + 1 + 1

/-- `HANDSHAKE_MAX_BYTES_LENGTH`. -/
def handshakeMaxBytesLength : ℕ := 2 + 8 + handshakeCoordinatorAddressBytesLength + 1 + 32

/-- `MAX_HOST_LENGTH`. -/
def maxHostLength : ℕ := 255

/-- What a neighbor is known by, whether it has a stream, and the version agreed with it. -/
structure Neighbor where
  domain : List UInt8
  ip : List UInt8
  port : UInt16
  stream : Bool
  protocolVersion : UInt8
  deriving DecidableEq, Repr

/-- The configuration the handshake is checked against. -/
structure Conf where
  coordinatorAddress : List UInt8
  mwm : UInt8
  length_eq : coordinatorAddress.length = handshakeCoordinatorAddressBytesLength

/-- `strcmp`. -/
def strcmp (lhs rhs : List UInt8) : ℤ := if lhs = rhs then 0 else if lhs < rhs then -1 else 1

/-- `endpoint_cmp`, of two neighbors. -/
def endpointCmp (lhs rhs : Neighbor) : ℤ :=
  if lhs.port ≠ rhs.port then (lhs.port.toNat : ℤ) - rhs.port.toNat
  else if strcmp lhs.ip rhs.ip = 0 ∨ strcmp lhs.domain rhs.domain = 0 then 0
  else strcmp lhs.ip rhs.ip

/-- `router_neighbor_find_by_endpoint_values`, with the binary search of the array library. -/
def neighborFindByEndpointValues (utarrayFind : List Neighbor → (Neighbor → ℤ) → Option ℕ)
    (neighbors : List Neighbor) (ip : List UInt8) (port : UInt16) : Option ℕ :=
  if maxHostLength < ip.length then none
  else utarrayFind neighbors (endpointCmp ⟨[], ip, port, false, 0⟩)

/-- The port of a handshake, in network byte order. -/
def portField (buf : List UInt8) : UInt16 :=
  UInt16.ofNat ((buf.getD 3 0).toNat * 256 + (buf.getD 4 0).toNat)

/-- The coordinator address of a handshake, behind the port and the timestamp. -/
def coordinatorAddressField (buf : List UInt8) : List UInt8 :=
  (buf.drop (headerBytesLength + 2 + 8)).take handshakeCoordinatorAddressBytesLength

/-- The minimum weight magnitude of a handshake. -/
def mwmField (buf : List UInt8) : UInt8 := buf.getD (headerBytesLength + 2 + 8 + 49) 0

/-- The versions of a handshake, which take what is left of its length. -/
def supportedVersionsField (buf : List UInt8) : List UInt8 :=
  (buf.drop (headerBytesLength + 2 + 8 + 49 + 1)).take
    (lengthField buf - handshakeMinBytesLength + 1)

/-- The errors of `router_read_handshake`. The last one is no code of the node but the read
before an empty list of versions. -/
inductive HandshakeError
  | invalidPacket
  | invalidPacketType
  | failedHandshake
  | undefinedRead
  deriving DecidableEq, Repr

/-- `router_read_handshake`: the neighbor that is accepted, and the neighbors then. -/
def readHandshake (own : List UInt8) (utarrayFind : List Neighbor → (Neighbor → ℤ) → Option ℕ)
    (conf : Conf) (neighbors : List Neighbor) (ip buf : List UInt8) :
    Except HandshakeError ℕ × List Neighbor :=
  if buf.length < headerBytesLength then (.error .invalidPacket, neighbors)
  else if typeField buf ≠ 1 then (.error .invalidPacketType, neighbors)
  else if buf.length ≠ headerBytesLength + lengthField buf ∨
      lengthField buf < handshakeMinBytesLength ∨ handshakeMaxBytesLength < lengthField buf then
    (.error .invalidPacket, neighbors)
  else if conf.coordinatorAddress ≠ coordinatorAddressField buf then
    (.error .failedHandshake, neighbors)
  else if conf.mwm ≠ mwmField buf then (.error .failedHandshake, neighbors)
  else
    match handshakeSupportedVersion own (supportedVersionsField buf) with
    | none => (.error .undefinedRead, neighbors)
    | some protocolVersion =>
      if protocolVersion < 0 then (.error .failedHandshake, neighbors)
      else
        match neighborFindByEndpointValues utarrayFind neighbors ip (portField buf) with
        | none => (.error .failedHandshake, neighbors)
        | some k =>
          match neighbors[k]? with
          | none => (.error .undefinedRead, neighbors)
          | some neighbor =>
            if neighbor.stream then (.error .failedHandshake, neighbors)
            else (.ok k, neighbors.set k
              { neighbor with protocolVersion := UInt8.ofNat protocolVersion.toNat })

/-- What an accepted handshake must be. -/
structure Agreed (own : List UInt8) (conf : Conf) (buf : List UInt8) : Prop where
  whole : buf.length = headerBytesLength + lengthField buf
  min_le : handshakeMinBytesLength ≤ lengthField buf
  le_max : lengthField buf ≤ handshakeMaxBytesLength
  type : typeField buf = 1
  coordinatorAddress : coordinatorAddressField buf = conf.coordinatorAddress
  mwm : mwmField buf = conf.mwm
  version : ∃ v, Common own (supportedVersionsField buf) v

/-- What is asked of a negotiation with a peer that announces some versions: the
answer is the highest common one, and no router accepts the handshake of such a
peer without agreement. -/
structure Negotiates (own versions : List UInt8) : Prop where
  answer : ∃ answer, handshakeSupportedVersion own versions = some answer ∧
    Answers own versions answer
  accepts : ∀ utarrayFind conf neighbors ip buf k, supportedVersionsField buf = versions →
    (readHandshake own utarrayFind conf neighbors ip buf).1 = .ok k → Agreed own conf buf

/-- What has been checked when a neighbor is accepted. -/
theorem readHandshake_ok {utarrayFind : List Neighbor → (Neighbor → ℤ) → Option ℕ} {conf : Conf}
    {neighbors : List Neighbor} {ip buf : List UInt8} {k : ℕ}
    (h : (readHandshake own utarrayFind conf neighbors ip buf).1 = .ok k) :
    buf.length = headerBytesLength + lengthField buf ∧
      handshakeMinBytesLength ≤ lengthField buf ∧ lengthField buf ≤ handshakeMaxBytesLength ∧
      typeField buf = 1 ∧ coordinatorAddressField buf = conf.coordinatorAddress ∧
      mwmField buf = conf.mwm ∧
      ∃ answer, handshakeSupportedVersion own (supportedVersionsField buf) = some answer ∧
        0 ≤ answer := by
  unfold readHandshake at h
  split at h
  · contradiction
  split at h
  · contradiction
  split at h
  · contradiction
  split at h
  · contradiction
  split at h
  · contradiction
  rename_i htype hlen hcoo hmwm
  rw [not_or, not_or] at hlen
  refine ⟨not_not.mp hlen.1, not_lt.mp hlen.2.1, not_lt.mp hlen.2.2, not_not.mp htype,
    (not_not.mp hcoo).symm, (not_not.mp hmwm).symm, ?_⟩
  split at h
  · contradiction
  · rename_i answer heq
    refine ⟨answer, heq, ?_⟩
    split at h
    · contradiction
    · omega

/-- **When the negotiation works.** -/
theorem negotiates_iff (own versions : List UInt8) :
    Negotiates own versions ↔ versions ≠ [] ∧ versions ≠ [0] := by
  constructor
  · intro h
    exact answers_iff.mp h.answer
  · intro h
    obtain ⟨answer, heq, hans⟩ := answers_iff.mpr h
    refine ⟨⟨answer, heq, hans⟩, ?_⟩
    intro utarrayFind conf neighbors ip buf k hver hok
    obtain ⟨hwhole, hmin, hmax, htype, hcoo, hmwm, answer', heq', hnonneg⟩ := readHandshake_ok hok
    rw [hver, heq] at heq'
    obtain rfl := Option.some.inj heq'
    refine ⟨hwhole, hmin, hmax, htype, hcoo, hmwm, ?_⟩
    rcases hans with ⟨v, -, hc, -⟩ | ⟨hneg, -⟩
    · exact ⟨v, hver ▸ hc⟩
    · omega

/-- A handshake of the shortest length, with one byte of versions. -/
def shortHandshake (versions : UInt8) : List UInt8 :=
  [1, 0, 61, 0x3c, 0x2f] ++ List.replicate 8 0 ++ List.replicate 49 7 ++ [14, versions]

/-- **A peer that supports nothing is accepted.** Its one byte of versions is zero, and so is the
answer. -/
theorem zero_version_accepted :
    ¬ Negotiates [1] [0] ∧
      (readHandshake [1] (fun _ _ => some 0) ⟨List.replicate 49 7, 14, by decide⟩
        [⟨[], [49], 0x3c2f, false, 0⟩] [49] (shortHandshake 0)).1 = .ok 0 := by
  refine ⟨fun h => ?_, by decide⟩
  exact (answers_iff.mp h.answer).2 rfl

end Handshake

end Entangled
