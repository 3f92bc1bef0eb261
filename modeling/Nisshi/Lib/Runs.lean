import Nisshi.Lib.Log

/-! A list cut into runs: each item either continues the run that the first item of the run started, or
starts the next one. -/

namespace Nisshi.Lib

open List

universe u

variable {α : Type u}

/-- The runs of a list, after a run that has started with `base` and `tail`. -/
def runsFrom (continues : α → α → Bool) (base : α) (tail : List α) : List α → List (List α)
  | [] => [base :: tail]
  | item :: rest =>
    if continues base item then runsFrom continues base (tail ++ [item]) rest
    else (base :: tail) :: runsFrom continues item [] rest

def runs (continues : α → α → Bool) : List α → List (List α)
  | [] => []
  | first :: rest => runsFrom continues first [] rest

variable {continues : α → α → Bool} {base : α} {tail items : List α}

theorem flatten_runsFrom : (runsFrom continues base tail items).flatten = base :: tail ++ items := by
  induction items generalizing base tail with
  | nil => simp [runsFrom]
  | cons _ _ ih =>
    rw [runsFrom]
    split
    · rw [ih]
      simp
    · rw [flatten_cons, ih]
      simp

theorem flatten_runs (continues : α → α → Bool) (items : List α) : (runs continues items).flatten = items := by
  cases items with
  | nil => rfl
  | cons => exact flatten_runsFrom

theorem exists_runsFrom_eq_cons (continues : α → α → Bool) (base : α) (tail items : List α) :
    ∃ more others, runsFrom continues base tail items = (base :: tail ++ more) :: others := by
  induction items generalizing tail with
  | nil => exact ⟨[], [], by simp [runsFrom]⟩
  | cons item rest ih =>
    rw [runsFrom]
    split
    · obtain ⟨more, others, same⟩ := ih (tail ++ [item])
      exact ⟨item :: more, others, by simpa using same⟩
    · exact ⟨[], runsFrom continues item [] rest, by simp⟩

theorem of_mem_runsFrom (started : ∀ item ∈ tail, continues base item = true)
    (member : run ∈ runsFrom continues base tail items) :
    ∃ first later, run = first :: later ∧ ∀ item ∈ later, continues first item = true := by
  induction items generalizing base tail with
  | nil =>
    obtain rfl := mem_singleton.mp member
    exact ⟨base, tail, rfl, started⟩
  | cons _ _ ih =>
    rw [runsFrom] at member
    split at member
    next goes =>
      refine ih (fun other found => ?_) member
      rcases Log.mem_concat.mp found with old | rfl
      · exact started other old
      · exact goes
    next =>
      rcases mem_cons.mp member with rfl | later
      · exact ⟨base, tail, rfl, started⟩
      · refine ih ?_ later
        simp

theorem of_mem_runs (member : run ∈ runs continues items) :
    ∃ first later, run = first :: later ∧ ∀ item ∈ later, continues first item = true := by
  cases items with
  | nil => cases member
  | cons =>
    refine of_mem_runsFrom ?_ member
    simp

theorem runsFrom_eq_singleton (goes : ∀ item ∈ items, continues base item = true) :
    runsFrom continues base tail items = [base :: tail ++ items] := by
  induction items generalizing tail with
  | nil => simp [runsFrom]
  | cons item _ ih =>
    rw [runsFrom, if_pos (goes item mem_cons_self), ih fun other member => goes other (mem_cons_of_mem _ member)]
    simp

end Nisshi.Lib
