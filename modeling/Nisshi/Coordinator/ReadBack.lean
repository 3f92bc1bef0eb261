import Nisshi.Coordinator.Document
import Nisshi.Coordinator.Invariant

/-! A broker that reads the document of a group goes on where the broker that stored it left off, except with
a leader that is no longer a member. -/

namespace Nisshi.Coordinator

open Nisshi.SansIo Nisshi.Storage Nisshi.Lib Option
open Std (ExtTreeMap)

namespace Wrapper

variable {inner : Inner Forming}

theorem leader_dropLeader : (dropLeader inner).state.leader = inner.state.leader.filter inner.members.contains := by
  cases held : inner.state.protocol with
  | none | some => simp [dropLeader, Inner.setLeader, Forming.setLeader, Forming.leader, held]

theorem known_of_dropLeader (same : dropLeader inner = inner) :
    inner.state.leader.all inner.members.contains = true := by
  have kept : inner.state.leader.filter inner.members.contains = inner.state.leader := by
    rw [← leader_dropLeader, same]
  cases leads : inner.state.leader with
  | none => rfl
  | some =>
    rw [leads] at kept
    exact (filter_eq_some_iff.mp kept).2

theorem withStorageGroupDetail_of_sound (sound : inner.Sound) :
    withStorageGroupDetail (toGroupDetail (.forming inner)) = .forming (dropLeader inner) := by
  rw [withStorageGroupDetail_forming, repaired_eq_self (sound_dropLeader sound)]

theorem read_back_iff (sound : group.Sound) :
    withStorageGroupDetail group.toGroupDetail = group ↔ group.toGroupDetail.leaderIsMember = true := by
  refine ⟨fun same => ?_, sound.read_back⟩
  cases group with
  | formed => rfl
  | forming =>
    rw [withStorageGroupDetail_of_sound sound] at same
    rw [leaderIsMember_forming]
    exact known_of_dropLeader (Wrapper.forming.inj same)

theorem Ordered.leaderIsMember {group : Wrapper} (ordered : group.Ordered True) :
    group.toGroupDetail.leaderIsMember = true := by
  cases group with
  | formed => rfl
  | forming =>
    rw [leaderIsMember_forming, Option.all_eq_true]
    exact fun leader leads => ExtTreeMap.contains_iff_mem.mpr (Inner.Led.leader ordered.toLed trivial leader leads)

end Wrapper

/-- The document of a group is read back as the group exactly when it names no leader that is not a member. No
join phase is made up for it: a forming group is read back as it was, but for such a leader. And in a run in
which no `settle` ends a join phase that nobody has joined in a group of static and dynamic members, every
state is read back as it was. -/
theorem stored_group_reads_back {history : History} (reached : History.machine.Reachable history) :
    (Wrapper.withStorageGroupDetail history.group.toGroupDetail = history.group ↔
      history.group.toGroupDetail.leaderIsMember = true) ∧
    (∀ inner, history.group = .forming inner →
      Wrapper.withStorageGroupDetail history.group.toGroupDetail = .forming (Wrapper.dropLeader inner)) ∧
    (History.machine.ReachableWhile History.Unstranded history →
      Wrapper.withStorageGroupDetail history.group.toGroupDetail = history.group) := by
  have sound := History.sound_of_reachable reached
  refine ⟨Wrapper.read_back_iff sound, fun inner forming => ?_, fun unstranded => ?_⟩
  · rw [forming] at sound ⊢
    exact Wrapper.withStorageGroupDetail_of_sound sound
  · have ordered : history.group.Ordered True :=
      History.ordered_of_reachable unstranded fun _ _ _ permitted => permitted
    exact sound.read_back ordered.leaderIsMember

/-- The group whose leader was removed is read back without a leader. -/
theorem removed_leader_is_dropped : ∃ history, History.machine.Reachable history ∧
    Wrapper.withStorageGroupDetail history.group.toGroupDetail ≠ history.group := by
  refine ⟨(History.start 0).handleAll (desertedPhase ++ desertion), ?_, fun same => ?_⟩
  · exact History.reachable_of_admissible _ (by decide +kernel)
  · have leaders := congrArg Wrapper.leader same
    revert leaders
    decide +kernel

/-- Until the join phase ends, that group is read back as it is. -/
theorem stored_group_reads_back_deserted : History.machine.Reachable
      ((History.start 0).handleAll desertedPhase) ∧
    Wrapper.withStorageGroupDetail ((History.start 0).handleAll desertedPhase).group.toGroupDetail =
      ((History.start 0).handleAll desertedPhase).group := by
  have reached : History.machine.Reachable ((History.start 0).handleAll desertedPhase) :=
    History.reachable_of_admissible desertedPhase (by decide +kernel)
  exact ⟨reached, (stored_group_reads_back reached).1.mpr (by decide +kernel)⟩

end Nisshi.Coordinator
