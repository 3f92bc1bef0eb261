import Nisshi.Lib.Log

/-! Labelled transition systems: the states that a run reaches, the runs whose steps all meet a
condition, and the rules by which an invariant of one step becomes a fact about every run. -/

namespace Nisshi.Lib

universe u v w x

/-- A labelled transition system. A step is a relation, so that an action may have several outcomes. -/
structure Machine (σ : Type u) (α : Type v) where
  init : σ → Prop
  step : σ → α → σ → Prop

namespace Machine

variable {σ : Type u} {α : Type v} {τ : Type w} {β : Type x}

/-- The states reached by a run in which each action met `allowed` in the state it was taken from. -/
inductive ReachableWhile (m : Machine σ α) (allowed : σ → α → Prop) : σ → Prop where
  | init {s : σ} (initial : m.init s) : ReachableWhile m allowed s
  | step {s t : σ} {a : α} (before : ReachableWhile m allowed s) (permitted : allowed s a)
      (step : m.step s a t) : ReachableWhile m allowed t

def Reachable (m : Machine σ α) : σ → Prop :=
  m.ReachableWhile (fun _ _ => True)

variable {m : Machine σ α} {allowed : σ → α → Prop} {s t : σ} {a : α}

theorem Reachable.init (initial : m.init s) : m.Reachable s :=
  ReachableWhile.init initial

theorem Reachable.step (before : m.Reachable s) (step : m.step s a t) : m.Reachable t :=
  ReachableWhile.step before trivial step

theorem ReachableWhile.next (before : m.ReachableWhile allowed s) (step : m.step s a t)
    (permitted : allowed s a) : m.ReachableWhile allowed t :=
  before.step permitted step

/-- What holds initially and is kept by every permitted step holds in every state reached. -/
theorem ReachableWhile.invariant {P : σ → Prop} (initial : ∀ s, m.init s → P s)
    (preserved : ∀ s a t, P s → allowed s a → m.step s a t → P t) (reached : m.ReachableWhile allowed s) : P s := by
  induction reached with
  | init start => exact initial _ start
  | step _ permitted taken ih => exact preserved _ _ _ ih permitted taken

theorem Reachable.invariant {P : σ → Prop} (initial : ∀ s, m.init s → P s)
    (preserved : ∀ s a t, P s → m.step s a t → P t) (reached : m.Reachable s) : P s :=
  ReachableWhile.invariant initial (fun s a t holds _ taken => preserved s a t holds taken) reached

theorem ReachableWhile.reachable (reached : m.ReachableWhile allowed s) : m.Reachable s :=
  ReachableWhile.invariant (fun _ start => Reachable.init start)
    (fun _ _ _ before _ taken => before.step taken) reached

end Machine

end Nisshi.Lib
