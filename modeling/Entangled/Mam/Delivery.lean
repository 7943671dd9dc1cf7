import Entangled.Mam.Rejected
/-!
# Delivering a packet

A message is cut into the parts of transactions, which laid end to end are the message and some
zeros behind it. So a reader gets what was written with something behind it, which is how `Replays`
wants it: a packet that was written from the state a reader's context is in is read by
`mam_api_bundle_read`, and leaves the reader's context in the state of the writer's again.
-/

namespace Entangled

namespace Mam

open Spongos

/-! ## Cutting a message -/

/-- How many zeros are behind a message of so many trits. -/
def fill (n : ℕ) : ℕ := (numTritsMessage - n % numTritsMessage) % numTritsMessage

/-- How many transactions a message of so many trits takes. -/
def numParts (n : ℕ) : ℕ := (n + (numTritsMessage - 1)) / numTritsMessage

/-- The parts of a message. -/
theorem bundleWrapFrom_spec (transaction : Transaction) (bundle : List Transaction)
    (message : List Trit) :
    ∃ parts : List (List Trit),
      bundleWrapFrom transaction bundle message =
        bundle ++ parts.map (fun buffer => { transaction with message := buffer }) ∧
      parts.length = numParts message.length ∧
      (∀ part ∈ parts, part.length = numTritsMessage) ∧
      parts.flatten = message ++ List.replicate (fill message.length) .zero := by
  induction hn : message.length using Nat.strong_induction_on generalizing bundle message with
  | _ n ih =>
    by_cases hnil : message = []
    · obtain rfl := hnil
      obtain rfl : n = 0 := hn.symm
      refine ⟨[], ?_, rfl, fun part hpart => (nomatch hpart), rfl⟩
      rw [bundleWrapFrom, dif_pos rfl, List.map_nil, List.append_nil]
    · have hpos := List.length_pos_iff.mpr hnil
      have hsize : 0 < numTritsMessage := by decide
      have hdrop : (message.drop numTritsMessage).length = n - numTritsMessage := by
        rw [List.length_drop, hn]
      obtain ⟨parts, hparts, hlen, hsizes, hflat⟩ := ih (n - numTritsMessage) (by omega)
        (bundle ++ [{ transaction with
          message := message.take numTritsMessage ++ List.replicate
            (numTritsMessage - (message.take numTritsMessage).length) .zero }])
        (message.drop numTritsMessage) hdrop
      have hfirst : (message.take numTritsMessage ++ List.replicate
          (numTritsMessage - (message.take numTritsMessage).length) Trit.zero).length =
          numTritsMessage := by
        rw [List.length_append, List.length_replicate]
        have := List.length_take_le numTritsMessage message
        omega
      refine ⟨(message.take numTritsMessage ++ List.replicate
        (numTritsMessage - (message.take numTritsMessage).length) .zero) :: parts, ?_, ?_, ?_, ?_⟩
      · rw [bundleWrapFrom, dif_neg hnil]
        dsimp only
        rw [hparts, List.map_cons, List.append_assoc]
        rfl
      · rw [List.length_cons, hlen]
        unfold numParts numTritsMessage
        omega
      · intro part hpart
        rcases List.mem_cons.mp hpart with rfl | hpart
        · exact hfirst
        · exact hsizes part hpart
      · rw [List.flatten_cons, hflat]
        rcases Nat.lt_or_ge numTritsMessage n with hlt | hge
        · -- the part is full
          have hfull : numTritsMessage - (message.take numTritsMessage).length = 0 := by
            rw [List.length_take, hn]
            omega
          have hsame : fill (n - numTritsMessage) = fill n := by
            unfold fill numTritsMessage at *
            omega
          rw [hfull, List.replicate_zero, List.append_nil, hsame, ← List.append_assoc,
            List.take_append_drop]
        · -- the last part is filled up
          have hlast : message.take numTritsMessage = message :=
            List.take_of_length_le (by omega)
          have hnone : message.drop numTritsMessage = [] := List.drop_of_length_le (by omega)
          have hzero : fill (n - numTritsMessage) = 0 := by
            unfold fill numTritsMessage at *
            omega
          have hrest : numTritsMessage - n = fill n := by
            unfold fill numTritsMessage at *
            omega
          rw [hlast, hnone, hzero, hn, hrest, List.replicate_zero, List.append_nil, List.append_nil]

/-- What `bundle_reset_indexes` does not look at. -/
theorem map_bundleResetIndexes {β : Type} {f : Transaction → β}
    (hf : ∀ tx i n, f { tx with lastIndex := n, currentIndex := i } = f tx)
    (bundle : List Transaction) : (bundleResetIndexes bundle).map f = bundle.map f := by
  refine List.ext_getElem (by simp [bundleResetIndexes]) fun i h₁ h₂ => ?_
  simp only [bundleResetIndexes, List.getElem_map, List.getElem_mapIdx, hf]

section Wrap

variable (now : ℕ) (address tag message : List Trit) (bundle : List Transaction)

theorem map_tag_bundleWrap :
    (bundleWrap now address tag message bundle).map Transaction.tag =
      bundle.map Transaction.tag ++ List.replicate (numParts message.length) tag := by
  unfold bundleWrap
  rw [map_bundleResetIndexes fun _ _ _ => rfl]
  obtain ⟨parts, hparts, hlen, -, -⟩ := bundleWrapFrom_spec _ bundle message
  rw [hparts, List.map_append, List.map_map, ← hlen]
  exact congrArg _ List.map_const'

theorem map_address_bundleWrap :
    (bundleWrap now address tag message bundle).map Transaction.address =
      bundle.map Transaction.address ++ List.replicate (numParts message.length) address := by
  unfold bundleWrap
  rw [map_bundleResetIndexes fun _ _ _ => rfl]
  obtain ⟨parts, hparts, hlen, -, -⟩ := bundleWrapFrom_spec _ bundle message
  rw [hparts, List.map_append, List.map_map, ← hlen]
  exact congrArg _ List.map_const'

theorem length_bundleWrap : (bundleWrap now address tag message bundle).length =
    bundle.length + numParts message.length := by
  rw [← List.length_map (f := Transaction.tag), map_tag_bundleWrap, List.length_append,
    List.length_map, List.length_replicate]

/-- **What is unwrapped** is what was there, the message and its zeros. -/
theorem bundleUnwrap_bundleWrap :
    bundleUnwrap (bundleWrap now address tag message bundle) =
      bundleUnwrap bundle ++ (message ++ List.replicate (fill message.length) .zero) := by
  unfold bundleWrap bundleUnwrap
  rw [map_bundleResetIndexes fun _ _ _ => rfl]
  obtain ⟨parts, hparts, -, -, hflat⟩ := bundleWrapFrom_spec _ bundle message
  rw [hparts, List.map_append, List.map_map, List.flatten_append, ← hflat]
  exact congrArg _ (congrArg _ parts.map_id)

end Wrap

end Mam

end Entangled
