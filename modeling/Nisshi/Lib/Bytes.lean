import Mathlib.Data.List.Basic
import Mathlib.Tactic.Ring

/-! Byte buffers that are written by appending and read from the front: what a reader makes of the bytes
that a writer put, however many bytes follow, and the fixed-width big-endian integers. -/

namespace Nisshi.Lib.Bytes

open List Option

universe u

abbrev Reader (α : Type) := StateT (List UInt8) Option α

/-- `reader` takes exactly `bytes` off the front of any buffer that starts with them, and answers `a`. -/
def Reads {α : Type} (reader : Reader α) (bytes : List UInt8) (a : α) : Prop :=
  ∀ rest, reader (bytes ++ rest) = some (a, rest)

section Reads

variable {α β : Type} {reader : Reader α} {bytes more : List UInt8} {a : α} {b : β}

theorem Reads.pure (a : α) : Reads (Pure.pure a) [] a :=
  fun _ => rfl

variable {next : α → Reader β}

theorem Reads.bind (first : Reads reader bytes a) (second : Reads (next a) more b) :
    Reads (reader >>= next) (bytes ++ more) b := by
  intro rest
  change (reader ((bytes ++ more) ++ rest)).bind (fun result => next result.1 result.2) = _
  rw [append_assoc, first, bind_some, second]

theorem Reads.peek {check : Reader γ} {c : γ} {next : γ → Reader β}
    (passes : ∀ rest, check (more ++ rest) = some (c, more ++ rest)) (second : Reads (next c) more b) :
    Reads (check >>= next) more b := by
  intro rest
  change (check (more ++ rest)).bind (fun result => next result.1 result.2) = _
  rw [passes, bind_some, second]

theorem Reads.last (first : Reads reader bytes a) (second : Reads (next a) [] b) : Reads (reader >>= next) bytes b := by
  have both := first.bind second
  rwa [append_nil] at both

theorem Reads.map (f : α → β) (reads : Reads reader bytes a) : Reads (f <$> reader) bytes (f a) := by
  change Reads (reader >>= fun a => Pure.pure (f a)) bytes (f a)
  exact reads.last (Reads.pure (f a))

theorem Reads.all (reads : Reads reader bytes a) : reader bytes = some (a, []) := by
  have whole := reads []
  rwa [append_nil] at whole

/-- `reader` fails on every buffer that starts with `bytes`. -/
def Refuses (reader : Reader α) (bytes : List UInt8) : Prop :=
  ∀ rest, reader (bytes ++ rest) = none

theorem Reads.refuses (first : Reads reader bytes a) (second : Refuses (next a) more) :
    Refuses (reader >>= next) (bytes ++ more) := by
  intro rest
  change (reader ((bytes ++ more) ++ rest)).bind (fun result => next result.1 result.2) = _
  rw [append_assoc, first, bind_some, second]

theorem Reads.refuses_last (first : Reads reader bytes a) (second : Refuses (next a) []) :
    Refuses (reader >>= next) bytes := by
  have both := first.refuses second
  rwa [append_nil] at both

theorem Refuses.all (refuses : Refuses reader bytes) : reader bytes = none := by
  have whole := refuses []
  rwa [append_nil] at whole

theorem Refuses.bind (first : Refuses reader bytes) : Refuses (reader >>= next) bytes := by
  intro rest
  change (reader (bytes ++ rest)).bind (fun result => next result.1 result.2) = _
  rw [first, bind_none]

end Reads

def byte : Reader UInt8
  | [] => none
  | first :: rest => some (first, rest)

theorem reads_byte (value : UInt8) : Reads byte [value] value :=
  fun _ => rfl

def slice (length : Nat) : Reader (List UInt8) := fun buffer =>
  if length ≤ buffer.length then some (buffer.take length, buffer.drop length) else none

theorem reads_slice (bytes : List UInt8) : Reads (slice bytes.length) bytes bytes := by
  intro rest
  have enough : bytes.length ≤ (bytes ++ rest).length := by simp
  simp only [slice, if_pos enough, take_left, drop_left]

def many {α : Type} (reader : Reader α) : Nat → Reader (List α)
  | 0 => pure []
  | count + 1 => do
    let first ← reader
    let rest ← many reader count
    pure (first :: rest)

theorem reads_many {reader : Reader α} {put : α → List UInt8} {items : List α}
    (each : ∀ item ∈ items, Reads reader (put item) item) :
    Reads (many reader items.length) (items.flatMap put) items := by
  induction items with
  | nil => exact Reads.pure []
  | cons first rest ih =>
    refine (each first mem_cons_self).bind (Reads.last ?_ (Reads.pure (first :: rest)))
    exact ih fun item member => each item (mem_cons_of_mem _ member)

/-- The low `width` bytes of a number, most significant first. -/
def putNat : Nat → Nat → List UInt8
  | 0, _ => []
  | width + 1, value => UInt8.ofNat (value / 256 ^ width) :: putNat width value

/-- A number of `width` bytes, read after the digits of `high`. -/
def getNat : Nat → Nat → Reader Nat
  | 0, high => pure high
  | width + 1, high => do
    let digit ← byte
    getNat width (high * 256 + digit.toNat)

@[simp]
theorem length_putNat (width value : Nat) : (putNat width value).length = width := by
  induction width with
  | zero => rfl
  | succ _ ih => rw [putNat, length_cons, ih]

theorem reads_getNat (width value high : Nat) :
    Reads (getNat width high) (putNat width value) (high * 256 ^ width + value % 256 ^ width) := by
  induction width generalizing high with
  | zero => simpa [getNat, putNat, Nat.mod_one] using Reads.pure high
  | succ width ih =>
    have tail := ih (high * 256 + value / 256 ^ width % 256)
    have total : (high * 256 + value / 256 ^ width % 256) * 256 ^ width + value % 256 ^ width =
        high * 256 ^ (width + 1) + value % 256 ^ (width + 1) := by
      rw [Nat.mod_pow_succ]
      ring
    rw [total] at tail
    exact (reads_byte _).bind tail

end Nisshi.Lib.Bytes
