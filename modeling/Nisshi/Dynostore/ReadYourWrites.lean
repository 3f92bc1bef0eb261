import Nisshi.Dynostore.OptiCon

/-! Whether `OptiCon::with` reads what `OptiCon::with_mut` wrote through the same handle. The handle and
the `Cache` take every response as it arrives. A response that the store served before a newer write,
and that arrives after it, puts the older document back into both, and `with` then answers from it
without a GET. When responses arrive in the order the store served them, `with` is never behind. -/

namespace Nisshi.Dynostore.OptiCon

open Nisshi.Lib List Function

universe u

section Runs

variable {D B V T H C R : Type u} [Inhabited D]

/-- The response that the step puts into the handle is at least as new as what the handle holds. -/
def InOrder (k : Backend D B V T) (program : C → Call H D R) (s : State D B V T H C R) : Action H C → Prop
  | .landGet c => ∀ reply position next, s.phase c = .received reply position →
      k.land (program c) reply = .replace next → s.seen (program c).handle ≤ position
  | .landPut c => ∀ dv outcome version position,
      s.phase c = .acknowledged dv outcome version position → s.seen (program c).handle ≤ position
  | _ => True

def Dated (log : List (Write B V C)) : Phase D B V T R → Prop
  | .answered _ (.found object) position =>
    ∃ n write, position = n + 1 ∧ log[n]? = some write ∧ write.object = object
  | .received (.found object) position =>
    ∃ n write, position = n + 1 ∧ log[n]? = some write ∧ write.object = object
  | .answered _ .notFound position => position = 0
  | .received .notFound position => position = 0
  | _ => True

structure Fresh (k : Backend D B V T) (program : C → Call H D R) (s : State D B V T H C R) : Prop where
  bound : ∀ h, s.seen h ≤ s.log.length
  document : ∀ h, s.data h = k.document s.log (s.seen h)
  acked : ∀ h, ∀ n ∈ s.acked h, n ≤ s.seen h
  before : ∀ c, ∀ n ∈ s.ackedBefore c, n ≤ s.seen (program c).handle
  dated : ∀ c, Dated s.log (s.phase c)
  returned : ∀ c data, s.ranOn c = some data → ∃ answer, s.phase c = .returned answer
  ran : ∀ c data, s.ranOn c = some data → ∃ n ≤ s.log.length, (∀ m ∈ s.ackedBefore c, m ≤ n) ∧ k.document s.log n = data

section Lemmas

variable {k : Backend D B V T} {program : C → Call H D R} {s : State D B V T H C R}

omit [Inhabited D] in
theorem Dated.append {log more : List (Write B V C)} {phase : Phase D B V T R}
    (dated : Dated log phase) : Dated (log ++ more) phase := by
  cases phase with
  | answered _ reply =>
    cases reply with
    | found =>
      obtain ⟨n, write, place, found, same⟩ := dated
      exact ⟨n, write, place, Log.found_append found, same⟩
    | _ => exact dated
  | received reply =>
    cases reply with
    | found =>
      obtain ⟨n, write, place, found, same⟩ := dated
      exact ⟨n, write, place, Log.found_append found, same⟩
    | _ => exact dated
  | _ => trivial

omit [Inhabited D] in
theorem dated_serveGet [DecidableEq T] {log : List (Write B V C)} {presented : Option T} :
    Dated (D := D) (R := R) log (.answered presented
      (k.serveGet (log.getLast?.map Write.object) presented) log.length) := by
  cases newest : log.getLast? with
  | none =>
    rw [List.getLast?_eq_none_iff] at newest
    subst newest
    rfl
  | some write =>
    obtain ⟨n, length, found⟩ := Log.getLast?_eq_some newest
    simp only [Option.map_some, Backend.serveGet]
    split
    · trivial
    · exact ⟨n, write, length, found, rfl⟩

section

variable (fresh : Fresh k program s)

include fresh

theorem Fresh.dated_at {c : C} (at_ : s.phase c = now) : Dated s.log now :=
  at_ ▸ fresh.dated c

theorem Fresh.not_run {c : C} (at_ : s.phase c = now)
    (running : ∀ answer, now ≠ .returned answer) : s.ranOn c = none := by
  cases ran : s.ranOn c with
  | none => rfl
  | some data =>
    obtain ⟨answer, returned⟩ := fresh.returned c data ran
    exact absurd (at_.symm.trans returned) (running answer)

theorem Fresh.setPhase [DecidableEq C] (c : C) (next : Phase D B V T R) (dated : Dated s.log next)
    (waiting : s.ranOn c = none) : Fresh k program (s.setPhase c next) :=
  { fresh with
    dated := (forall_update_iff s.phase (fun _ phase => Dated s.log phase)).mpr
      ⟨dated, fun other _ => fresh.dated other⟩
    returned := by
      intro other data ran
      have others : other ≠ c := by
        rintro rfl
        exact absurd (waiting.symm.trans ran) nofun
      obtain ⟨answer, at_⟩ := fresh.returned other data ran
      exact ⟨answer, (update_of_ne others _ _).trans at_⟩ }

theorem Fresh.noteStart [DecidableEq C] (c : C) (waiting : s.ranOn c = none) :
    Fresh k program (s.noteStart c (program c).handle) :=
  { fresh with
    before := (forall_update_iff s.ackedBefore
      (fun c list => ∀ n ∈ list, n ≤ s.seen (program c).handle)).mpr
        ⟨fresh.acked _, fun other _ => fresh.before other⟩
    ran := by
      intro other data ran
      have others : other ≠ c := by
        rintro rfl
        exact absurd (waiting.symm.trans ran) nofun
      obtain ⟨n, bound, after, same⟩ := fresh.ran other data ran
      exact ⟨n, bound, by simpa only [State.noteStart, update_of_ne others] using after, same⟩ }

theorem Fresh.noteRun [DecidableEq C] (c : C) (at_ : s.phase c = .returned answer) :
    Fresh k program (s.noteRun c (s.data (program c).handle)) :=
  { fresh with
    returned := (forall_update_iff s.ranOn (fun c ran => ∀ data, ran = some data →
      ∃ answer, s.phase c = .returned answer)).mpr
        ⟨fun _ _ => ⟨answer, at_⟩, fun other _ => fresh.returned other⟩
    ran := by
      refine (forall_update_iff s.ranOn (fun c ran => ∀ data, ran = some data →
        ∃ n ≤ s.log.length, (∀ m ∈ s.ackedBefore c, m ≤ n) ∧ k.document s.log n = data)).mpr
          ⟨?_, fun other _ => fresh.ran other⟩
      rintro _ ⟨⟩
      exact ⟨s.seen (program c).handle, fresh.bound _, fresh.before c, (fresh.document _).symm⟩ }

theorem Fresh.noteAck [DecidableEq H] {h : H} (bound : position ≤ s.seen h) : Fresh k program (s.noteAck h position) :=
  { fresh with
    acked := by
      refine (forall_update_iff s.acked (fun h list => ∀ n ∈ list, n ≤ s.seen h)).mpr
        ⟨?_, fun other _ => fresh.acked other⟩
      exact forall_mem_cons.mpr ⟨bound, fresh.acked h⟩ }

theorem Fresh.setHandle [DecidableEq H] (h : H) (next : Option (DataVersion D V)) (newer : s.seen h ≤ position)
    (bound : position ≤ s.log.length)
    (same : (next.getD default).data = k.document s.log position) :
    Fresh k program (s.setHandle h next position) := by
  have forward : ∀ other, s.seen other ≤ update s.seen h position other :=
    (forall_update_iff s.seen (fun other seen => s.seen other ≤ seen)).mpr
      ⟨newer, fun _ _ => Nat.le_refl _⟩
  refine ⟨?bound, ?document, fun other n member => (fresh.acked other n member).trans (forward _),
    fun c n member => (fresh.before c n member).trans (forward _), fresh.dated, fresh.returned,
    fresh.ran⟩
  case bound =>
    exact (forall_update_iff s.seen (fun _ seen => seen ≤ s.log.length)).mpr
      ⟨bound, fun other _ => fresh.bound other⟩
  case document =>
    intro other
    by_cases mine : other = h
    · subst mine
      simpa only [State.data, State.setHandle, update_self] using same
    · simpa only [State.data, State.setHandle, update_of_ne mine] using fresh.document other

theorem Fresh.setEntry [DecidableEq H] (h : H) (entry : Option (Option T)) : Fresh k program (s.setEntry h entry) :=
  { fresh with }

theorem Fresh.push (write : Write B V C) : Fresh k program (s.push write) :=
  { fresh with
    bound := fun h => (fresh.bound h).trans (by simp [State.push])
    document := fun h => (fresh.document h).trans (document_append (fresh.bound h)).symm
    dated := fun c => (fresh.dated c).append
    ran := by
      intro c data ran
      obtain ⟨n, bound, after, same⟩ := fresh.ran c data ran
      exact ⟨n, bound.trans (by simp [State.push]), after, (document_append bound).trans same⟩ }

private theorem Fresh.landGet [DecidableEq H] [DecidableEq C] {c : C} {reply : GetReply B V} {position : Nat}
    (at_ : s.phase c = .received reply position) (newer : ∀ next, k.land (program c) reply = .replace next →
      s.seen (program c).handle ≤ position) : Fresh k program (s.landGet k c (program c) reply position) := by
  have dated : ∀ fetched, Dated s.log ((program c).afterGet (T := T) fetched) := by
    intro fetched
    cases program c <;> cases fetched <;> trivial
  have waiting := fresh.not_run at_ nofun
  cases landing : k.land (program c) reply with
  | keep =>
    simp only [State.landGet, landing]
    exact fresh.setPhase c _ (dated true) waiting
  | fail =>
    simp only [State.landGet, landing]
    exact fresh.setPhase c _ (dated false) waiting
  | replace next =>
    simp only [State.landGet, landing]
    have notOlder := newer next landing
    have carried := fresh.dated_at at_
    cases reply with
    | found =>
      obtain ⟨_, write, rfl, found, rfl⟩ := carried
      simp only [Backend.land] at landing
      split at landing
      next data decoded =>
        simp only [Landing.replace.injEq] at landing
        subst landing
        have forward := fresh.setHandle (program c).handle
          (some { data, version := some write.object.version }) notOlder (Log.lt_length found)
          (document_succ found decoded).symm
        exact forward.setPhase c _ (dated true) waiting
      next => cases landing
    | notFound =>
      cases landing
      obtain rfl : position = 0 := carried
      exact (fresh.setHandle _ _ notOlder (Nat.zero_le _) rfl).setPhase c _ (dated true) waiting
    | notModified => cases call : program c <;> rw [call] at landing <;> cases landing
    | error => cases landing

end

theorem Fresh.step [DecidableEq V] [DecidableEq T] [DecidableEq H] [DecidableEq C]
    (lawful : k.Lawful) {t : State D B V T H C R} (linear : Linear k program s.log s.dataVersion s.phase)
    (fresh : Fresh k program s)
    (inOrder : InOrder k program s a) (step : Step k program s a t) : Fresh k program t := by
  cases step with
  | @beginWith c h f call at_ =>
    have waiting := fresh.not_run at_ (by simp)
    obtain rfl : (program c).handle = h := by rw [call]; rfl
    exact (fresh.noteStart c waiting).setPhase c _ trivial waiting
  | beginWithMut _ at_ =>
    refine fresh.setPhase _ _ ?_ (fresh.not_run at_ (by simp))
    simp only [Backend.compute]
    split <;> trivial
  | lookup at_ =>
    refine fresh.setPhase _ _ ?_ (fresh.not_run at_ (by simp))
    split <;> trivial
  | serveGet at_ => exact fresh.setPhase _ _ dated_serveGet (fresh.not_run at_ (by simp))
  | failGet at_ | refusePut at_ | failPut at_ => exact fresh.setPhase _ _ trivial (fresh.not_run at_ (by simp))
  | @cacheGet _ _ reply _ at_ =>
    have dated := fresh.dated_at at_
    exact (fresh.setEntry _ _).setPhase _ _ (by cases reply <;> exact dated) (fresh.not_run at_ (by simp))
  | landGet at_ =>
    exact fresh.landGet at_ fun next landing => inOrder _ _ next at_ landing
  | @runClosure c h f fetched call at_ =>
    obtain rfl : (program c).handle = h := by rw [call]; rfl
    have finished := fresh.setPhase c
      (.returned (if fetched then .outcome (f (s.data (program c).handle)) else .failed)) trivial
      (fresh.not_run at_ (by simp))
    exact finished.noteRun c (update_self ..)
  | servePut at_ => exact (fresh.push _).setPhase _ _ trivial (fresh.not_run at_ (by simp))
  | cachePut at_ => exact (fresh.setEntry _ _).setPhase _ _ trivial (fresh.not_run at_ (by simp))
  | @landPut c dv outcome version position at_ =>
    obtain ⟨n, _, rfl, found, _, encoded, _⟩ := linear.knows_at at_
    have newer := inOrder _ _ _ _ at_
    have decoded := lawful.round_trip _ _ encoded
    have forward := fresh.setHandle (program c).handle (some { dv with version := some version }) newer
      (Log.lt_length found) (document_succ found decoded).symm
    have reached : n + 1 ≤ (s.setHandle (program c).handle (some { dv with version := some version })
        (n + 1)).seen (program c).handle := by simp [State.setHandle]
    exact (forward.noteAck reached).setPhase c _ trivial (fresh.not_run at_ (by simp))
  | expire h => exact fresh.setEntry h none

variable [DecidableEq V] [DecidableEq T] [DecidableEq H] [DecidableEq C]

/-- When no response replaces a newer document in the handle, a `with` runs its closure on a document
at least as new as every document that a `with_mut` on its handle had stored and returned before
the `with` started. -/
theorem with_reads_acked_writes (lawful : k.Lawful)
    (reached : (machine k program).ReachableWhile (InOrder k program) s) {c : C} {data : D}
    (ran : s.ranOn c = some data) :
    ∃ n ≤ s.log.length, (∀ m ∈ s.ackedBefore c, m ≤ n) ∧ k.document s.log n = data := by
  have invariant := Machine.ReachableWhile.invariant
    (P := fun s => Linear k program s.log s.dataVersion s.phase ∧ Fresh k program s)
    ?initial (fun s a t ⟨linear, fresh⟩ inOrder step =>
      ⟨linear.step lawful step, fresh.step lawful linear inOrder step⟩) reached
  · exact invariant.2.ran c data ran
  case initial =>
    rintro _ rfl
    exact ⟨linear_start, fun _ => Nat.le_refl 0, fun _ => rfl, nofun, nofun, fun _ => trivial, nofun, nofun⟩

end Lemmas

end Runs

/-- Four tasks of one broker: two count up, and two read. -/
inductive Task where
  | slowRead
  | firstWrite
  | secondWrite
  | lastRead
  deriving DecidableEq

def tasks : Task → Call Unit Nat Nat
  | .slowRead => .withData () id
  | .firstWrite => .withMut () fun count => (count + 1, count)
  | .secondWrite => .withMut () fun count => (count + 1, count)
  | .lastRead => .withData () id

/-- In order: `lastRead` finds the e-tag of `firstWrite` in the `Cache` and runs on its document. -/
theorem with_reads_acked_writes_cached :
    ∃ s, (machine counterBackend tasks).ReachableWhile (InOrder counterBackend tasks) s ∧
      s.ackedBefore .lastRead = [1] ∧ s.ranOn .lastRead = some 1 ∧ ∃ n ≤ s.log.length,
        (∀ m ∈ s.ackedBefore .lastRead, m ≤ n) ∧ counterBackend.document s.log n = 1 := by
  have start : (machine counterBackend tasks).ReachableWhile (InOrder counterBackend tasks)
    State.start := .init rfl
  have stored := (((start.next (.beginWithMut (c := .firstWrite) rfl rfl) trivial).next
    (.servePut (c := .firstWrite) rfl rfl) trivial).next (.cachePut (c := .firstWrite) rfl)
    trivial).next (.landPut (c := .firstWrite) rfl) (fun _ _ _ _ _ => Nat.zero_le _)
  have read := ((stored.next (.beginWith (c := .lastRead) rfl rfl) trivial).next
    (.lookup (c := .lastRead) rfl) trivial).next (.landGet (c := .lastRead) rfl)
    (fun _ _ _ at_ landing => by cases at_; cases landing)
  have ran := read.next (.runClosure (c := .lastRead) rfl rfl) trivial
  exact ⟨_, ran, rfl, rfl, with_reads_acked_writes counterBackend_lawful ran rfl⟩

/-- The schedule that loses a write for a reader: the response of `slowRead`, served after the first
write, arrives after the second write has returned, and `lastRead` starts after that. -/
theorem with_reads_overwritten_document : ∃ s, (machine counterBackend tasks).Reachable s ∧
    s.phase .lastRead = .returned (.outcome 1) ∧ s.ackedBefore .lastRead = [2, 1] ∧
    s.ranOn .lastRead = some 1 ∧ ¬ ∃ n ≤ s.log.length,
      (∀ m ∈ s.ackedBefore .lastRead, m ≤ n) ∧ counterBackend.document s.log n = 1 := by
  have start : (machine counterBackend tasks).Reachable State.start := .init rfl
  have asked := (start.step (.beginWith (c := .slowRead) rfl rfl)).step (.lookup (c := .slowRead) rfl)
  have created := (asked.step (.beginWithMut (c := .firstWrite) rfl rfl)).step
    (.servePut (c := .firstWrite) rfl rfl)
  have served := created.step (.serveGet (c := .slowRead) rfl)
  have first := (served.step (.cachePut (c := .firstWrite) rfl)).step (.landPut (c := .firstWrite) rfl)
  have second := (((first.step (.beginWithMut (c := .secondWrite) rfl rfl)).step
    (.servePut (c := .secondWrite) rfl rfl)).step (.cachePut (c := .secondWrite) rfl)).step
    (.landPut (c := .secondWrite) rfl)
  have late := ((second.step (.cacheGet (c := .slowRead) rfl)).step
    (.landGet (c := .slowRead) rfl)).step (.runClosure (c := .slowRead) rfl rfl)
  have last := (((late.step (.beginWith (c := .lastRead) rfl rfl)).step
    (.lookup (c := .lastRead) rfl)).step (.landGet (c := .lastRead) rfl)).step
    (.runClosure (c := .lastRead) rfl rfl)
  refine ⟨_, last, rfl, rfl, rfl, ?_⟩
  rintro ⟨n, bound, after, same⟩
  obtain rfl : n = 2 := Nat.le_antisymm bound (after 2 mem_cons_self)
  exact absurd same (by decide)

end Nisshi.Dynostore.OptiCon
