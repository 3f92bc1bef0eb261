import Nisshi.Lib.Log
import Mathlib.Data.List.Forall2

/-! A fallible function over a list: it succeeds when it succeeds on every item. -/

namespace Nisshi.Lib

open Option

universe u

variable {α β : Type u} {f : α → Option β} {items : List α} {results : List β}

theorem mapM_eq_some_iff :
    items.mapM f = some results ↔ List.Forall₂ (fun item result => f item = some result) items results := by
  induction items generalizing results with
  | nil => simp [eq_comm]
  | cons _ _ ih =>
    rw [List.mapM_cons]
    constructor
    · intro mapped
      obtain ⟨_, here, mapped⟩ := bind_eq_some_iff.mp mapped
      obtain ⟨_, there, last⟩ := bind_eq_some_iff.mp mapped
      cases last
      exact .cons here (ih.mp there)
    · rintro (_ | ⟨here, there⟩)
      rw [here, ih.mpr there]
      rfl

theorem mapM_eq_map (each : ∀ item ∈ items, f item = some (g item)) : items.mapM f = some (items.map g) := by
  rw [mapM_eq_some_iff, List.forall₂_map_right_iff, List.forall₂_same]
  exact each

variable {item : α} {r : α → β → Prop}

theorem exists_of_mapM (mapped : items.mapM f = some results) (member : item ∈ items) :
    ∃ result, f item = some result := by
  have related := mapM_eq_some_iff.mp mapped
  induction related with
  | nil => cases member
  | cons here _ ih =>
    cases member with
    | head => exact ⟨_, here⟩
    | tail _ later => exact ih (mapM_eq_some_iff.mpr ‹_›) later

theorem mapM_eq_none_iff : items.mapM f = none ↔ ∃ item ∈ items, f item = none := by
  induction items with
  | nil => simp
  | cons first rest ih =>
    simp only [List.mapM_cons, List.mem_cons, exists_eq_or_imp, ← ih]
    cases f first <;> cases rest.mapM f <;> simp

theorem forall_mem_of_forall₂ {p : β → Prop} (related : List.Forall₂ r items results)
    (each : ∀ item ∈ items, ∀ result, r item result → p result) : ∀ result ∈ results, p result := by
  induction related with
  | nil => exact fun _ none => nomatch none
  | cons here _ ih =>
    obtain ⟨one, all⟩ := List.forall_mem_cons.mp each
    exact List.forall_mem_cons.mpr ⟨one _ here, ih all⟩

theorem exists_left_of_forall₂ (related : List.Forall₂ r items results) (member : result ∈ results) :
    ∃ item ∈ items, r item result :=
  forall_mem_of_forall₂ (p := fun result => ∃ item ∈ items, r item result) related
    (fun item listed _ here => ⟨item, listed, here⟩) result member

theorem exists_right_of_forall₂ (related : List.Forall₂ r items results) (member : item ∈ items) :
    ∃ result ∈ results, r item result :=
  exists_left_of_forall₂ related.flip member

theorem forall₂_append_left (related : List.Forall₂ r (first ++ second) results) :
    ∃ left right, results = left ++ right ∧ List.Forall₂ r first left ∧ List.Forall₂ r second right := by
  induction first generalizing results with
  | nil => exact ⟨[], results, rfl, .nil, related⟩
  | cons _ _ ih =>
    cases related with
    | cons here there =>
      obtain ⟨left, right, rfl, front, back⟩ := ih there
      exact ⟨_ :: left, right, rfl, .cons here front, back⟩

theorem mapM_bind_mapM {γ : Type u} (f : α → Option β) (g : β → Option γ) (items : List α) :
    (items.mapM f).bind (List.mapM g) = items.mapM fun item => (f item).bind g := by
  induction items with
  | nil => rfl
  | cons first rest ih =>
    rw [List.mapM_cons, List.mapM_cons, ← ih]
    cases f first with
    | none => rfl
    | some here =>
      cases rest.mapM f with
      | none =>
        cases found : g here with
        | none | some => simp [found]
      | some => simp

theorem mapM_check_iff {p : α → Prop} (checks : ∀ item result, check item = some result ↔ result = item ∧ p item) :
    items.mapM check = some passed ↔ passed = items ∧ ∀ item ∈ items, p item := by
  rw [mapM_eq_some_iff]
  constructor
  · intro related
    induction related with
    | nil => exact ⟨rfl, fun _ none => nomatch none⟩
    | cons here _ ih =>
      obtain ⟨rfl, holds⟩ := (checks _ _).mp here
      obtain ⟨rfl, others⟩ := ih
      exact ⟨rfl, List.forall_mem_cons.mpr ⟨holds, others⟩⟩
  · rintro ⟨rfl, all⟩
    rw [List.forall₂_same]
    exact fun item member => (checks item item).mpr ⟨rfl, all item member⟩

theorem mapM_ite (p : α → Prop) [DecidablePred p] (f : α → Option β) (items : List α) :
    items.mapM (fun item => if p item then f item else none) =
      if ∀ item ∈ items, p item then items.mapM f else none := by
  induction items with
  | nil => simp
  | cons first rest ih =>
    rw [List.mapM_cons, List.mapM_cons, ih]
    by_cases here : p first
    · by_cases there : ∀ item ∈ rest, p item
      · have all : ∀ item ∈ first :: rest, p item := List.forall_mem_cons.mpr ⟨here, there⟩
        rw [if_pos here, if_pos there, if_pos all]
      · have not_all : ¬∀ item ∈ first :: rest, p item :=
          fun all => there (List.forall_mem_cons.mp all).2
        rw [if_pos here, if_neg there, if_neg not_all]
        cases f first <;> rfl
    · have not_all : ¬∀ item ∈ first :: rest, p item := fun all => here (List.forall_mem_cons.mp all).1
      rw [if_neg here, if_neg not_all]
      rfl

/-! The same for a function that fails with an error. -/

section Fallible

variable {ε : Type u} {a : α} {b : β}

theorem bind_eq_ok_iff {x : Except ε α} : x >>= k = .ok b ↔ ∃ a, x = .ok a ∧ k a = .ok b := by
  cases x with
  | error => exact ⟨nofun, fun ⟨_, no, _⟩ => nomatch no⟩
  | ok a => exact ⟨fun rest => ⟨a, rfl, rest⟩, fun ⟨_, same, rest⟩ => Except.ok.inj same ▸ rest⟩

theorem bind_eq_error_iff {k : α → Except ε β} :
    x >>= k = .error e ↔ x = .error e ∨ ∃ a, x = .ok a ∧ k a = .error e := by
  cases x <;> simp [bind, Except.bind]

theorem map_eq_ok_iff {x : Except ε α} : x.map g = .ok b ↔ ∃ a, x = .ok a ∧ g a = b := by
  cases x with
  | error => exact ⟨nofun, fun ⟨_, no, _⟩ => nomatch no⟩
  | ok a =>
    exact ⟨fun rest => ⟨a, rfl, Except.ok.inj rest⟩,
      fun ⟨_, same, rest⟩ => congrArg Except.ok ((congrArg g (Except.ok.inj same)).trans rest)⟩

variable {f : α → Except ε β} {g : α → β}

theorem mapM_of_forall₂ (related : List.Forall₂ (fun item result => f item = .ok result) items results) :
    items.mapM f = .ok results := by
  induction related with
  | nil => rfl
  | cons here _ ih =>
    rw [List.mapM_cons, here, ih]
    rfl

theorem toOption_mapM (f : α → Except ε β) (items : List α) :
    (items.mapM f).toOption = items.mapM fun item => (f item).toOption := by
  induction items with
  | nil => rfl
  | cons first rest ih =>
    rw [List.mapM_cons, List.mapM_cons, ← ih]
    cases f first with
    | error => rfl
    | ok => cases rest.mapM f <;> rfl

theorem error_of_mapM (mapped : items.mapM f = .error e) : ∃ item ∈ items, f item = .error e := by
  induction items with
  | nil => cases mapped
  | cons _ _ ih =>
    rw [List.mapM_cons] at mapped
    simp only [List.mem_cons, exists_eq_or_imp]
    rcases bind_eq_error_iff.mp mapped with here | ⟨_, _, mapped⟩
    · exact .inl here
    · rcases bind_eq_error_iff.mp mapped with there | ⟨_, _, last⟩
      · exact .inr (ih there)
      · cases last

theorem ok_of_mapM (mapped : items.mapM f = .ok results) : ∀ item ∈ items, ∃ result, f item = .ok result := by
  induction items generalizing results with
  | nil => exact fun _ none => absurd none List.not_mem_nil
  | cons _ _ ih =>
    rw [List.mapM_cons] at mapped
    obtain ⟨result, here, mapped⟩ := bind_eq_ok_iff.mp mapped
    obtain ⟨_, there, _⟩ := bind_eq_ok_iff.mp mapped
    exact List.forall_mem_cons.mpr ⟨⟨result, here⟩, ih there⟩

theorem eq_map_of_mapM (mapped : items.mapM f = .ok results)
    (each : ∀ item ∈ items, ∀ result, f item = .ok result → result = g item) : results = items.map g := by
  induction items generalizing results with
  | nil =>
    cases mapped
    rfl
  | cons _ _ ih =>
    rw [List.mapM_cons] at mapped
    obtain ⟨result, here, mapped⟩ := bind_eq_ok_iff.mp mapped
    obtain ⟨_, there, last⟩ := bind_eq_ok_iff.mp mapped
    cases last
    obtain ⟨one, all⟩ := List.forall_mem_cons.mp each
    rw [List.map_cons, one result here, ih there all]

end Fallible

end Nisshi.Lib
