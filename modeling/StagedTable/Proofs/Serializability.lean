import StagedTable.Proofs.Turns

/-!
# No update is lost, none lands twice

Updates are worked out on caches, which may be old, and a commit compares nothing but version
numbers.  All the same, what is stored under a name is at every moment of a run what the landed
changes make of the created metadata, one after the other, each of them made of the metadata that
the one before it left.  The version counts them (`World.stored_eq_replay`).

The reason is coherence: a cache with the stored version is what is stored, so a change that gets
past the comparison was worked out on the very metadata that it replaces.
-/

namespace StagedTable

namespace World

/-- **Serializability.**  After every run, and so at every moment of it, the metadata stored under a
name is the replay, from the created metadata, of the changes whose commits were told that they
succeeded, in the order of the commits; and its version is their number. -/
theorem stored_eq_replay {acts : List Action} (h : empty.Legal acts) (i : Nat) (N : String) :
    (empty.births i N acts = [] ∧ empty.landings i N acts = [] ∧
      (empty.after acts).stored? i N = none) ∨
    ∃ first m, empty.births i N acts = [first] ∧
      replay first (empty.landings i N acts) = some m ∧
      (empty.after acts).stored? i N = some m ∧
      m.version = (empty.landings i N acts).length := by
  induction acts, h using Legal.snoc_induction with
  | nil => exact .inl ⟨births_nil _ i N, landings_nil _ i N, rfl⟩
  | snoc acts a hl hf ih =>
    rw [births_snoc, landings_snoc, after_snoc]
    cases turn_act (coherent_after hl) hf i N with
    | kept hb hland hs =>
      rw [hb, hland, hs]
      simpa only [Option.toList_none, List.append_nil] using ih
    | @created schema m hb hland hm hfree hs =>
      rcases ih with ⟨hnone, hnothing, _⟩ | ⟨_, _, _, _, hcur, _⟩
      · right
        rw [hb, hland, hnone, hnothing]
        exact ⟨m, m, rfl, replay_nil m, hs, congrArg Metadata.version hm.symm⟩
      · cases hfree.symm.trans hcur
    | @landed c cur m hb hland hcur hm hs =>
      rcases ih with ⟨_, _, hfree⟩ | ⟨first, cur', hfirst, hreplay, hcur', hversion⟩
      · cases hfree.symm.trans hcur
      · obtain rfl : cur = cur' := Option.some.inj (hcur.symm.trans hcur')
        right
        rw [hb, hland, Option.toList_none, List.append_nil, Option.toList_some]
        refine ⟨first, m, hfirst, ?_, hs, ?_⟩
        · rw [replay_snoc, hreplay]
          exact hm
        · rw [Change.version_of_on hm, hversion, List.length_append, List.length_singleton]

/-- three commits are made, and two of them land -/
theorem stored_eq_replay_race : ∃ first m, empty.births 0 "orders" race = [first] ∧
    replay first (empty.landings 0 "orders" race) = some m ∧
    (empty.after race).stored? 0 "orders" = some m ∧ m.version = 2 := by
  rcases stored_eq_replay legal_race 0 "orders" with ⟨hnone, _⟩ | hsome
  · cases hnone
  · exact hsome

end World

end StagedTable
