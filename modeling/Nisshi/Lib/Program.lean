import Mathlib.Tactic.Common

/-! Programs that call an environment with a state, can fail, and run their loops a bounded number of times.
`Returns` says what holds of every value that a program returns, in whatever state it begins, and has a rule
for each way to build a program. -/

namespace Nisshi.Lib

open Option

/-- `none` is a program that is still in one of its loops. -/
abbrev Program (σ ε : Type) := StateT σ (ExceptT ε Option)

namespace Program

variable {σ ε α β γ : Type}

def call (answer : σ → α × σ) : Program σ ε α := fun s =>
  pure (answer s)

/-- Runs `body` until it gives a result, at most `fuel` times. -/
def loop (body : β → Program σ ε (β ⊕ α)) : Nat → β → Program σ ε α
  | 0, _ => fun _ => none
  | fuel + 1, current => do
    match ← body current with
    | .inl next => loop body fuel next
    | .inr result => pure result

/-- Runs `body` on one item after another, handing on what it accumulates. -/
def mapAccum (body : γ → α → Program σ ε (β × γ)) : γ → List α → Program σ ε (List β × γ)
  | acc, [] => pure ([], acc)
  | acc, item :: items => do
    let (result, acc) ← body acc item
    let (results, acc) ← mapAccum body acc items
    pure (result :: results, acc)

/-- Run in `s`, the program returns `a` and leaves the environment in `t`. -/
def Gives (program : Program σ ε α) (s : σ) (a : α) (t : σ) : Prop :=
  (program s).run = some (.ok (a, t))

section Gives

variable {s t : σ} {a a' : α} {b : β}

@[simp] theorem gives_pure : Gives (pure a : Program σ ε α) s a' t ↔ a' = a ∧ t = s := by
  constructor
  · intro gives
    cases gives
    exact ⟨rfl, rfl⟩
  · rintro ⟨rfl, rfl⟩
    rfl

@[simp] theorem gives_call : Gives (call answer : Program σ ε α) s a t ↔ answer s = (a, t) := by
  constructor
  · intro gives
    exact Except.ok.inj (some.inj gives)
  · intro same
    exact congrArg (fun answered => some (Except.ok answered)) same

@[simp] theorem not_gives_throw : ¬Gives (throw error : Program σ ε α) s a t :=
  fun gives => nomatch some.inj gives

@[simp] theorem gives_bind {program : Program σ ε α} :
    Gives (program >>= next) s b t ↔ ∃ a mid, Gives program s a mid ∧ Gives (next a) mid b t := by
  have unfolded : ((program >>= next) s).run = (program s).run.bind fun
      | .ok (a, mid) => (next a mid).run
      | .error error => some (.error error) := by
    change ((program s).run.bind _) = _
    congr 1
    funext outcome
    cases outcome <;> rfl
  unfold Gives
  rw [unfolded, bind_eq_some_iff]
  constructor
  · rintro ⟨outcome, first, rest⟩
    cases outcome with
    | error => cases rest
    | ok answered => exact ⟨answered.1, answered.2, first, rest⟩
  · rintro ⟨_, _, first, rest⟩
    exact ⟨_, first, rest⟩

theorem gives_loop {body : β → Program σ ε (β ⊕ α)} {fuel : Nat} : Gives (loop body (fuel + 1) current) s a t ↔
      Gives (body current) s (.inr a) t ∨
        ∃ next mid, Gives (body current) s (.inl next) mid ∧ Gives (loop body fuel next) mid a t := by
  rw [loop, gives_bind]
  constructor
  · rintro ⟨outcome, mid, first, rest⟩
    cases outcome with
    | inl next => exact .inr ⟨next, mid, first, rest⟩
    | inr =>
      obtain ⟨rfl, rfl⟩ := gives_pure.mp rest
      exact .inl first
  · rintro (ended | ⟨_, _, first, rest⟩)
    · exact ⟨_, _, ended, gives_pure.mpr ⟨rfl, rfl⟩⟩
    · exact ⟨_, _, first, rest⟩

theorem gives_mapAccum_cons {body : γ → α → Program σ ε (β × γ)} {acc : γ} {items : List α} :
    Gives (mapAccum body acc (item :: items)) s results t ↔
      ∃ result next mid others, Gives (body acc item) s (result, next) mid ∧
        Gives (mapAccum body next items) mid (others, results.2) t ∧ results.1 = result :: others := by
  rw [mapAccum, gives_bind]
  constructor
  · rintro ⟨⟨result, next⟩, mid, first, rest⟩
    obtain ⟨⟨others, _⟩, _, second, third⟩ := gives_bind.mp rest
    obtain ⟨rfl, rfl⟩ := gives_pure.mp third
    exact ⟨result, next, mid, others, first, second, rfl⟩
  · rintro ⟨result, next, mid, others, first, second, same⟩
    refine ⟨(result, next), mid, first, gives_bind.mpr ⟨(others, results.2), t, second, ?_⟩⟩
    exact gives_pure.mpr ⟨Prod.ext same rfl, rfl⟩

end Gives

/-- Every value that the program returns meets `post`. -/
def Returns (program : Program σ ε α) (post : α → Prop) : Prop :=
  ∀ ⦃s a t⦄, Gives program s a t → post a

section Returns

variable {post : α → Prop} {program : Program σ ε α}

theorem returns_pure (meets : post a) : Returns (pure a : Program σ ε α) post := by
  intro s b t gives
  obtain ⟨rfl, -⟩ := gives_pure.mp gives
  exact meets

theorem returns_throw : Returns (throw error : Program σ ε α) post :=
  fun _ _ _ gives => absurd gives not_gives_throw

theorem returns_call (meets : ∀ s, post (answer s).1) : Returns (call answer : Program σ ε α) post := by
  intro s a t gives
  have answered := meets s
  rw [gives_call.mp gives] at answered
  exact answered

theorem Returns.bind {next : α → Program σ ε β} (first : Returns program post)
    (rest : ∀ a, post a → Returns (next a) goal) : Returns (program >>= next) goal := by
  intro s b t gives
  obtain ⟨a, _, before, after⟩ := gives_bind.mp gives
  exact rest a (first before) after

theorem returns_bind {next : α → Program σ ε β} (rest : ∀ a, Returns (next a) goal) : Returns (program >>= next) goal :=
  Returns.bind (fun _ _ _ _ => True.intro) fun a _ => rest a

theorem Returns.mono (returns : Returns program post) (weaker : ∀ a, post a → goal a) : Returns program goal :=
  fun _ _ _ gives => weaker _ (returns gives)

theorem returns_loop {body : β → Program σ ε (β ⊕ α)} (holds : β → Prop)
    (step : ∀ current, holds current → Returns (body current) (Sum.elim holds post)) {fuel : Nat}
    (now : holds current) : Returns (loop body fuel current) post := by
  induction fuel generalizing current with
  | zero => exact fun _ _ _ gives => nomatch gives
  | succ _ ih =>
    intro s a t gives
    rcases gives_loop.mp gives with ended | ⟨_, _, first, rest⟩
    · exact step current now ended
    · exact ih (step current now first) rest

private theorem returns_mapAccum_from {body : γ → α → Program σ ε (β × γ)} {all : List α}
    (holds : List α → List β → γ → Prop)
    (step : ∀ {done results acc item rest}, all = done ++ item :: rest → holds done results acc →
      Returns (body acc item) fun (result, next) => holds (done ++ [item]) (results ++ [result]) next)
    {items done : List α} {results : List β} {acc : γ} (split : all = done ++ items) (now : holds done results acc) :
    Returns (mapAccum body acc items) fun (others, last) => holds all (results ++ others) last := by
  induction items generalizing done results acc with
  | nil =>
    obtain rfl : all = done := by simpa using split
    exact returns_pure (by simpa using now)
  | cons _ _ ih =>
    rintro _ ⟨found, _⟩ _ gives
    obtain ⟨result, _, _, others, first, rest, same⟩ := gives_mapAccum_cons.mp gives
    obtain rfl : found = result :: others := same
    have after := ih (by simpa using split) (step split now first) rest
    simpa using after

/-- What each item keeps, of the items so far and their results, holds of the list. -/
theorem returns_mapAccum {body : γ → α → Program σ ε (β × γ)} (holds : List α → List β → γ → Prop)
    (step : ∀ {done results acc item rest}, items = done ++ item :: rest → holds done results acc →
      Returns (body acc item) fun (result, next) => holds (done ++ [item]) (results ++ [result]) next)
    (now : holds [] [] acc) : Returns (mapAccum body acc items) fun (results, last) => holds items results last := by
  simpa using returns_mapAccum_from holds step rfl now

end Returns

end Program

end Nisshi.Lib
