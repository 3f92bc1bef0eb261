import Nisshi.Lib.Machine
import Mathlib.Logic.Relation
import Mathlib.Tactic.Common

/-! A group that agrees, round by round, on a protocol, on a leader, and on what its members are assigned. A
round begins when the members have gathered; the leader then settles it with an assignment; and the next
gathering ends it. A member may be replaced by another one while a round is settled. Whatever order things
happen in, a round has one protocol, one leader and one assignment. -/

namespace Nisshi.Lib.Rounds

open List

universe u v w

variable {M : Type u} {P : Type v} {A : Type w}

inductive Stage (M : Type u) (A : Type w) where
  | gathering
  | awaiting (leader : M)
  | settled (leader : M) (assigned : M → Option A)

structure Invitation (M : Type u) (P : Type v) where
  round : Int
  protocol : P
  member : M
  /-- The member is told that it leads the round, and so has to assign. -/
  leads : Bool

/-- A group, with what its members were told: the invitations, the assignments that leaders made, the members
that were replaced, and the answers to members that asked for what they are assigned. -/
structure State (M : Type u) (P : Type v) (A : Type w) where
  round : Int
  protocol : Option P
  stage : Stage M A
  invitations : List (Invitation M P)
  installed : List (Int × (M → Option A))
  replaced : List (Int × M × M)
  answers : List (Int × M × A)

inductive Step : State M P A → State M P A → Prop
  | adopt {s : State M P A} (p : P) (gathering : s.stage = .gathering) (free : s.protocol = none) :
      Step s { s with protocol := some p }
  | gather {s : State M P A} : Step s { s with stage := .gathering }
  | begin {s : State M P A} (leader : M) (gathering : s.stage = .gathering) :
      Step s { s with round := s.round + 1, stage := .awaiting leader }
  | dissolve {s : State M P A} (gathering : s.stage = .gathering) :
      Step s { s with round := s.round + 1, protocol := none }
  | invite {s : State M P A} {leader : M} (p : P) (member : M) (leads : Bool)
      (awaiting : s.stage = .awaiting leader) (agreed : s.protocol = some p)
      (told : leads = true → member = leader) :
      Step s { s with invitations := ⟨s.round, p, member, leads⟩ :: s.invitations }
  | install {s : State M P A} {leader : M} (assigned : M → Option A) (awaiting : s.stage = .awaiting leader) :
      Step s { s with stage := .settled leader assigned, installed := (s.round, assigned) :: s.installed }
  | follow {s : State M P A} {leader : M} {assigned : M → Option A} (p : P) (member : M)
      (settled : s.stage = .settled leader assigned) (agreed : s.protocol = some p) :
      Step s { s with invitations := ⟨s.round, p, member, false⟩ :: s.invitations }
  | answer {s : State M P A} {leader : M} {assigned : M → Option A} (member : M) (assignment : A)
      (settled : s.stage = .settled leader assigned) (given : assigned member = some assignment) :
      Step s { s with answers := (s.round, member, assignment) :: s.answers }
  | replace {s : State M P A} {leader : M} {assigned moved : M → Option A} (later old new : M)
      (settled : s.stage = .settled leader assigned)
      (kept : ∀ member assignment, moved member = some assignment →
        assigned member = some assignment ∨ member = new ∧ assigned old = some assignment) :
      Step s { s with stage := .settled later moved, replaced := (s.round, old, new) :: s.replaced }

def machine : Machine (State M P A) Unit where
  init := fun s => s.protocol = none ∧ s.stage = .gathering ∧ s.invitations = [] ∧ s.installed = [] ∧
    s.replaced = [] ∧ s.answers = []
  step := fun s _ t => Step s t

/-- In the round, `origin` was replaced, one member after another, by `member`. -/
def Became (replaced : List (Int × M × M)) (round : Int) : M → M → Prop :=
  Relation.ReflTransGen fun old new => (round, old, new) ∈ replaced

theorem Became.mono {replaced : List (Int × M × M)} (within : ∀ r ∈ replaced, r ∈ more) {round : Int}
    (became : Became replaced round origin member) : Became more round origin member :=
  Relation.ReflTransGen.mono (fun _ _ listed => within _ listed) _ _ became

/-- The member has what the assignment of the round gives to the member whose place it has. -/
def Entitled (installed : List (Int × (M → Option A))) (replaced : List (Int × M × M)) (round : Int)
    (member : M) (assignment : A) : Prop :=
  ∃ assigned, (round, assigned) ∈ installed ∧
    ∃ origin, assigned origin = some assignment ∧ Became replaced round origin member

theorem Entitled.mono {installed : List (Int × (M → Option A))} {replaced : List (Int × M × M)} {round : Int}
    {member : M} (entitled : Entitled installed replaced round member assignment) (kept : ∀ i ∈ installed, i ∈ later)
    (within : ∀ r ∈ replaced, r ∈ more) : Entitled later more round member assignment := by
  obtain ⟨assigned, listed, origin, given, became⟩ := entitled
  exact ⟨assigned, kept _ listed, origin, given, became.mono within⟩

/-- The invitations of the current round name its protocol, and its leader while it is awaited. -/
structure Invited (s : State M P A) : Prop where
  current : ∀ i ∈ s.invitations, i.round < s.round ∨ i.round = s.round ∧ s.protocol = some i.protocol ∧
    (i.leads = true → ∀ leader, s.stage = .awaiting leader → i.member = leader)
  agree : ∀ i ∈ s.invitations, ∀ j ∈ s.invitations, i.round = j.round →
    i.protocol = j.protocol ∧ (i.leads = true → j.leads = true → i.member = j.member)

/-- The current round has an assignment only once it is settled, and its members have what it gives them. -/
structure Assigned (s : State M P A) : Prop where
  current : ∀ i ∈ s.installed, i.1 < s.round ∨ i.1 = s.round ∧ ∀ leader, s.stage ≠ .awaiting leader
  once : (s.installed.map (·.1)).Nodup
  settled : ∀ leader assigned, s.stage = .settled leader assigned →
    ∀ member assignment, assigned member = some assignment → Entitled s.installed s.replaced s.round member assignment
  answered : ∀ a ∈ s.answers, Entitled s.installed s.replaced a.1 a.2.1 a.2.2

variable {s t : State M P A}

theorem Invited.cons (invited : Invited s) {p : P} {member : M} {leads : Bool} (agreed : s.protocol = some p)
    (told : leads = true → ∀ leader, s.stage = .awaiting leader → member = leader)
    (first : leads = true → ∃ leader, s.stage = .awaiting leader) :
    Invited { s with invitations := ⟨s.round, p, member, leads⟩ :: s.invitations } := by
  have agreeing : ∀ i ∈ s.invitations, i.round = s.round →
      i.protocol = p ∧ (leads = true → i.leads = true → i.member = member) := by
    intro i listed same
    rcases invited.current i listed with earlier | ⟨_, named, leader⟩
    · omega
    · refine ⟨Option.some.inj (named.symm.trans agreed), fun leading leads => ?_⟩
      obtain ⟨awaited, awaiting⟩ := first leading
      exact (leader leads awaited awaiting).trans (told leading awaited awaiting).symm
  refine ⟨fun i listed => ?_, fun i iListed j jListed same => ?_⟩
  · rcases mem_cons.mp listed with rfl | before
    · exact .inr ⟨rfl, agreed, told⟩
    · exact invited.current i before
  · rcases mem_cons.mp iListed with rfl | iBefore <;> rcases mem_cons.mp jListed with rfl | jBefore
    · exact ⟨rfl, fun _ _ => rfl⟩
    · obtain ⟨protocol, member⟩ := agreeing j jBefore same.symm
      exact ⟨protocol.symm, fun leading leads => (member leading leads).symm⟩
    · obtain ⟨protocol, member⟩ := agreeing i iBefore same
      exact ⟨protocol, fun leads leading => member leading leads⟩
    · exact invited.agree i iBefore j jBefore same

theorem Invited.step (invited : Invited s) (step : Step s t) : Invited t := by
  cases step with
  | adopt _ _ free =>
    refine ⟨fun i listed => ?_, invited.agree⟩
    rcases invited.current i listed with earlier | ⟨_, named, _⟩
    · exact .inl earlier
    · rw [free] at named
      cases named
  | gather | install | replace =>
    exact ⟨fun i listed => (invited.current i listed).imp_right fun ⟨now, named, _⟩ => ⟨now, named, nofun⟩,
      invited.agree⟩
  | begin leader gathering | dissolve gathering =>
    refine ⟨fun i listed => .inl ?_, invited.agree⟩
    rcases invited.current i listed with earlier | ⟨now, _⟩
    all_goals change i.round < s.round + 1; omega
  | @invite awaited p member leads awaiting agreed told =>
    refine invited.cons agreed (fun leading leader same => ?_) fun _ => ⟨awaited, awaiting⟩
    rw [told leading]
    exact Stage.awaiting.inj (awaiting.symm.trans same)
  | follow _ _ _ agreed => exact invited.cons agreed nofun nofun
  | answer => exact ⟨invited.current, invited.agree⟩

theorem Assigned.step (assigned : Assigned s) (step : Step s t) : Assigned t := by
  have later : ∀ i ∈ s.installed, i.1 < s.round + 1 := fun i listed => by
    rcases assigned.current i listed with earlier | ⟨now, _⟩ <;> omega
  cases step with
  | adopt => exact ⟨assigned.current, assigned.once, assigned.settled, assigned.answered⟩
  | gather =>
    exact ⟨fun i listed => (assigned.current i listed).imp_right fun ⟨now, _⟩ => ⟨now, nofun⟩, assigned.once,
      nofun, assigned.answered⟩
  | begin =>
    exact ⟨fun i listed => .inl (later i listed), assigned.once, nofun, assigned.answered⟩
  | dissolve gathering =>
    refine ⟨fun i listed => .inl (later i listed), assigned.once, fun leader given settled => ?_, assigned.answered⟩
    cases gathering.symm.trans settled
  | invite | follow =>
    exact ⟨assigned.current, assigned.once, assigned.settled, assigned.answered⟩
  | @install leader given awaiting =>
    have unsettled : ∀ i ∈ s.installed, i.1 < s.round := fun i listed =>
      (assigned.current i listed).resolve_right fun ⟨_, other⟩ => other leader awaiting
    refine ⟨fun i listed => ?_, ?_, ?_, fun a listed => ?_⟩
    · rcases mem_cons.mp listed with rfl | before
      exacts [.inr ⟨rfl, nofun⟩, .inl (unsettled i before)]
    · rw [map_cons, nodup_cons]
      refine ⟨fun again => ?_, assigned.once⟩
      obtain ⟨i, listed, round⟩ := mem_map.mp again
      exact absurd round (Int.ne_of_lt (unsettled i listed))
    · rintro _ _ ⟨⟩ member _ held
      exact ⟨given, mem_cons_self, member, held, .refl⟩
    · exact (assigned.answered a listed).mono (fun _ held => mem_cons_of_mem _ held) fun _ held => held
  | @answer leader given member assignment settled held =>
    refine ⟨assigned.current, assigned.once, assigned.settled, fun a listed => ?_⟩
    rcases mem_cons.mp listed with rfl | before
    exacts [assigned.settled leader given settled member assignment held, assigned.answered a before]
  | @replace leader given moved later old new settled kept =>
    have more : ∀ r ∈ s.replaced, r ∈ (s.round, old, new) :: s.replaced :=
      fun _ held => mem_cons_of_mem _ held
    refine ⟨fun i listed => (assigned.current i listed).imp_right fun ⟨now, _⟩ => ⟨now, nofun⟩, assigned.once,
      ?_, fun a listed => (assigned.answered a listed).mono (fun _ held => held) more⟩
    rintro _ _ ⟨⟩ member assignment held
    rcases kept member assignment held with stays | ⟨rfl, before⟩
    · exact (assigned.settled leader given settled member assignment stays).mono (fun _ held => held) more
    · obtain ⟨map, listed, origin, entry, became⟩ :=
        assigned.settled leader given settled old assignment before
      exact ⟨map, listed, origin, entry, (became.mono more).tail mem_cons_self⟩

theorem invited_of_reachable (reached : (machine (M := M) (P := P) (A := A)).Reachable s) : Invited s := by
  refine reached.invariant ?_ fun _ _ _ invited step => invited.step step
  rintro _ ⟨_, _, none, _⟩
  exact ⟨fun i listed => by simp [none] at listed, fun i listed => by simp [none] at listed⟩

theorem assigned_of_reachable (reached : (machine (M := M) (P := P) (A := A)).Reachable s) : Assigned s := by
  refine reached.invariant ?_ fun _ _ _ assigned step => assigned.step step
  rintro _ ⟨_, gathering, _, none, _, unanswered⟩
  refine ⟨fun i listed => by simp [none] at listed, by simp [none], fun leader given settled => ?_,
    fun a listed => by simp [unanswered] at listed⟩
  cases gathering.symm.trans settled

end Nisshi.Lib.Rounds
