import Mathlib.Data.Finmap
import Bamboo.Types
import Bamboo.Library.Batches

/-!
# The key-value database

The state machine that committed commands could be executed on. A nil value
marks a read; `Execute` answers with the value before the command either way.
Go's maps have no order, so these are finite maps up to reordering, and equal
databases are equal as they are.
-/
namespace Bamboo

abbrev Key := Int64

/-- `nil` or some bytes. -/
abbrev Value := Option (List UInt8)

structure Command where
  key : Key
  value : Value
  deriving DecidableEq, Repr

def Command.isRead (c : Command) : Bool := c.value.isNone

structure Database where
  data : Finmap fun _ : Key => Value
  version : Int64
  multiversion : Bool
  history : Finmap fun _ : Key => List Value

namespace Database

def new (multiversion : Bool) : Database := ⟨∅, 0, multiversion, ∅⟩

/-- `d.data[k]`, nil for a key that is not there. -/
def get (d : Database) (k : Key) : Value := (d.data.lookup k).getD none

/-- `d.history[k]`. -/
def historyOf (d : Database) (k : Key) : List Value := (d.history.lookup k).getD []

def put (d : Database) (k : Key) (v : Value) : Database :=
  if v.isSome then
    { d with
      data := d.data.insert k v
      version := d.version + 1
      history := if d.multiversion then d.history.insert k (d.historyOf k ++ [v]) else d.history }
  else d

def execute (d : Database) (c : Command) : Value × Database := (d.get c.key, d.put c.key c.value)

end Database

def conflict (gamma delta : Command) : Bool :=
  if gamma.key = delta.key then
    if !gamma.isRead || !delta.isRead then true else false
  else false

def conflictBatch (batch1 batch2 : List Command) : Bool :=
  batch1.any fun gamma => batch2.any fun delta => conflict gamma delta

/-! ## Commands -/

namespace Database

variable (d : Database) {k k' : Key} {v v' : Value}

@[simp] theorem put_none : d.put k none = d := by simp [put]

theorem put_some (bytes : List UInt8) :
    d.put k (some bytes) =
      { d with
        data := d.data.insert k (some bytes)
        version := d.version + 1
        history := if d.multiversion then d.history.insert k (d.historyOf k ++ [some bytes])
          else d.history } := by
  simp [put]

/-- A write leaves the other keys alone. -/
theorem get_put_of_ne (h : k ≠ k') : (d.put k' v).get k = d.get k := by
  cases v with
  | none => simp
  | some bytes => simp [put_some, get, Finmap.lookup_insert_of_ne _ h]

theorem put_comm (h : k ≠ k') : (d.put k v).put k' v' = (d.put k' v').put k v := by
  cases v with
  | none => simp
  | some bytes =>
    cases v' with
    | none => simp
    | some bytes' =>
      simp only [put_some, historyOf, Database.mk.injEq, true_and]
      refine ⟨Finmap.insert_insert_of_ne _ h, ?_⟩
      split_ifs
      · rw [Finmap.lookup_insert_of_ne _ h, Finmap.lookup_insert_of_ne _ h.symm,
          Finmap.insert_insert_of_ne _ h]
      · rfl

end Database

/-- Commands that do not conflict are both reads or about different keys. -/
theorem conflict_eq_false_iff {gamma delta : Command} :
    conflict gamma delta = false ↔
      gamma.key ≠ delta.key ∨ (gamma.value = none ∧ delta.value = none) := by
  by_cases h : gamma.key = delta.key <;> simp [conflict, Command.isRead, h]

theorem conflictBatch_eq_false_iff {batch1 batch2 : List Command} :
    conflictBatch batch1 batch2 = false ↔
      ∀ gamma ∈ batch1, ∀ delta ∈ batch2, conflict gamma delta = false := by
  simp [conflictBatch]

theorem commutes_of_not_conflict {gamma delta : Command} (h : conflict gamma delta = false) :
    Batches.Commutes Database.execute gamma delta := by
  rcases conflict_eq_false_iff.mp h with hkey | ⟨hgamma, hdelta⟩
  · exact ⟨fun d => d.get_put_of_ne hkey, fun d => d.get_put_of_ne hkey.symm,
      fun d => d.put_comm hkey⟩
  · constructor <;> intro d <;> simp [Database.execute, hgamma, hdelta]

/-! ## Batches -/

namespace Database

/-- `Execute` on the commands one after the other, with the values returned. -/
def executeAll (d : Database) (batch : List Command) : List Value × Database :=
  Batches.run execute d batch

end Database

/-- Batches without a conflict between them can be executed in either order: the
database is the same, history and version included, and so is every value returned. -/
theorem executeAll_comm (d : Database) (batch1 batch2 : List Command)
    (h : conflictBatch batch1 batch2 = false) :
    ((d.executeAll batch1).2.executeAll batch2).2 = ((d.executeAll batch2).2.executeAll batch1).2 ∧
    ((d.executeAll batch2).2.executeAll batch1).1 = (d.executeAll batch1).1 ∧
    ((d.executeAll batch1).2.executeAll batch2).1 = (d.executeAll batch2).1 := by
  have hcommute : ∀ gamma ∈ batch1, ∀ delta ∈ batch2,
      Batches.Commutes Database.execute gamma delta := by
    intro gamma hgamma delta hdelta
    exact commutes_of_not_conflict (conflictBatch_eq_false_iff.mp h gamma hgamma delta hdelta)
  obtain ⟨hfirst, hsecond, hstate⟩ := Batches.run_run hcommute d
  exact ⟨hstate, hfirst, hsecond⟩

/-- Batches that read one key together and conflict within themselves. -/
theorem executeAll_comm_shared_read :
    let batch1 : List Command := [⟨1, some [7]⟩, ⟨2, none⟩, ⟨1, some [8]⟩]
    let batch2 : List Command := [⟨2, none⟩, ⟨3, some []⟩, ⟨3, none⟩]
    conflictBatch batch1 batch2 = false ∧
      (((Database.new true).executeAll batch1).2.executeAll batch2).2 =
        (((Database.new true).executeAll batch2).2.executeAll batch1).2 := by
  intro batch1 batch2
  have h : conflictBatch batch1 batch2 = false := by decide
  exact ⟨h, (executeAll_comm (Database.new true) batch1 batch2 h).1⟩

end Bamboo
