import Mathlib.Data.List.Forall2
import Readahead.Record

/-! What is read from a record, and that what is written is read back. Sizes are read exactly where
every name has a whole number within the limit, and a row where it has one for each name and no
more. So settings and positions come back from their records while their sizes are within the limit,
and whatever was read is within it. -/
namespace Readahead

namespace Record

theorem sizeTells {f : Field} {n : Nat} : size? f = some n ↔ f = .integer n ∧ n < sizeLimit := by
  cases f with
  | integer value =>
    simp only [size?, Field.integer.injEq]
    split
    · rename_i within
      rw [Option.some.injEq]
      omega
    · rename_i beyond
      exact ⟨fun read => by contradiction, fun ⟨same, small⟩ => absurd ⟨by omega, by omega⟩ beyond⟩
  | other => exact ⟨fun read => by contradiction, fun same => by cases same.1⟩

theorem readEach {α : Type} {read : α → Option Nat} {asked : List α} {sizes : List Nat} :
    asked.mapM read = some sizes ↔ List.Forall₂ (fun a n => read a = some n) asked sizes := by
  induction asked generalizing sizes with
  | nil => simp [eq_comm]
  | cons a asked ih =>
    simp only [List.mapM_cons, bind, pure, Option.bind_eq_some_iff, Option.some.injEq]
    constructor
    · rintro ⟨n, first, rest, later, rfl⟩
      exact .cons first (ih.mp later)
    · rintro (_ | ⟨first, later⟩)
      exact ⟨_, first, _, ih.mpr later, rfl⟩

theorem readSame {α : Type} {first later : α → Option Nat} {asked : List α}
    (same : ∀ a ∈ asked, first a = later a) : asked.mapM first = asked.mapM later := by
  induction asked with
  | nil => rfl
  | cons a asked ih =>
    rw [List.mapM_cons, List.mapM_cons, same a List.mem_cons_self,
      ih fun other member => same other (List.mem_cons_of_mem _ member)]

variable {names : List String} {sizes : List Nat}

theorem eachLimited {α : Type} {R : α → Nat → Prop} {asked : List α}
    (each : List.Forall₂ R asked sizes) (limited : ∀ a n, R a n → n < sizeLimit) :
    ∀ n ∈ sizes, n < sizeLimit := by
  induction each with
  | nil => exact fun n member => by contradiction
  | cons first later ih => exact List.forall_mem_cons.mpr ⟨limited _ _ first, ih⟩

theorem sizesNamed {fields : List (String × Field)} :
    (Record.named fields).sizes? names = some sizes ↔ List.Forall₂ (fun name (n : Nat) =>
      fields.reverse.lookup name = some (.integer n) ∧ n < sizeLimit) names sizes := by
  have found (name : String) (n : Nat) : (fields.reverse.lookup name).bind size? = some n ↔
      fields.reverse.lookup name = some (.integer n) ∧ n < sizeLimit := by
    cases fields.reverse.lookup name with
    | none => simp
    | some f => simp [sizeTells]
  rw [sizes?, readEach]
  simp only [found]

theorem sizesRow {fields : List Field} : (Record.row fields).sizes? names = some sizes ↔
    fields = sizes.map (fun n : Nat => .integer n) ∧ sizes.length = names.length ∧
      ∀ n ∈ sizes, n < sizeLimit := by
  rw [sizes?]
  constructor
  · intro read
    split at read
    · rename_i many
      have each := readEach.mp read
      simp only [sizeTells] at each
      refine ⟨?_, each.length_eq.symm.trans many, eachLimited each fun f n told => told.2⟩
      rw [← List.forall₂_eq_eq_eq, List.forall₂_map_right_iff]
      exact each.imp fun f n told => told.1
    · contradiction
  · rintro ⟨rfl, many, small⟩
    rw [List.length_map, if_pos many, readEach, List.forall₂_map_left_iff, List.forall₂_same]
    exact fun n member => sizeTells.mpr ⟨rfl, small n member⟩

theorem sizesLimited {r : Record} (read : r.sizes? names = some sizes) :
    sizes.length = names.length ∧ ∀ n ∈ sizes, n < sizeLimit := by
  cases r with
  | named fields =>
    have each := sizesNamed.mp read
    exact ⟨each.length_eq.symm, eachLimited each fun name n told => told.2⟩
  | row fields => exact (sizesRow.mp read).2
  | other => contradiction

theorem sizesFurther {fields further : List (String × Field)}
    (apart : ∀ name ∈ names, name ∉ further.map Prod.fst) :
    (Record.named (fields ++ further)).sizes? names = (Record.named fields).sizes? names := by
  refine readSame fun name member => ?_
  have none : further.reverse.lookup name = none := by
    refine List.lookup_eq_none_iff.mpr fun p inside => bne_iff_ne.mpr fun same => ?_
    exact apart name member (same ▸ List.mem_map_of_mem (List.mem_reverse.mp inside))
  rw [List.reverse_append, List.lookup_append, none]
  rfl

theorem lookupDistinct {fields : List (String × Field)} (distinct : (fields.map Prod.fst).Nodup)
    {name : String} {value : Field} (member : (name, value) ∈ fields) :
    fields.reverse.lookup name = some value := by
  obtain ⟨before, after, rfl⟩ := List.append_of_mem member
  simp only [List.map_append, List.map_cons] at distinct
  have apart := (List.nodup_cons.mp (List.nodup_append.mp distinct).2.1).1
  refine List.lookup_eq_some_iff.mpr ⟨after.reverse, before.reverse, by simp, fun p later => ?_⟩
  have inside := List.mem_map_of_mem (f := Prod.fst) (List.mem_reverse.mp later)
  exact bne_iff_ne.mpr fun same => apart (same ▸ inside)

theorem sizesWritten (distinct : names.Nodup) : (ofSizes names sizes).sizes? names = some sizes ↔
    sizes.length = names.length ∧ ∀ n ∈ sizes, n < sizeLimit := by
  refine ⟨sizesLimited, fun ⟨many, small⟩ => sizesNamed.mpr ?_⟩
  refine List.forall₂_iff_zip.mpr ⟨many.symm, fun {name n} member => ⟨?_, ?_⟩⟩
  · refine lookupDistinct ?_ ?_
    · rw [List.map_fst_zip (Nat.le_of_eq (by rw [List.length_map, many]))]
      exact distinct
    · rw [List.zip_map_right]
      exact List.mem_map_of_mem (f := Prod.map id _) member
  · exact small n (List.of_mem_zip member).2

end Record

namespace Settings

theorem recordTells {r : Record} {s : Settings} :
    ofRecord? r = some s ↔ r.sizes? names = some [s.capacity] := by
  unfold ofRecord?
  constructor
  · intro read
    split at read
    · rename_i sizes
      obtain rfl := Option.some.inj read
      exact sizes
    · contradiction
  · intro sizes
    rw [sizes]

theorem recordLimited {r : Record} {s : Settings} (read : ofRecord? r = some s) :
    s.capacity < Record.sizeLimit :=
  (Record.sizesLimited (recordTells.mp read)).2 _ List.mem_cons_self

theorem recordWritten (s : Settings) :
    ofRecord? s.toRecord = some s ↔ s.capacity < Record.sizeLimit := by
  rw [recordTells, toRecord, Record.sizesWritten (by decide)]
  simp [names]

end Settings

namespace Position

theorem recordTells {r : Record} {p : Position} :
    ofRecord? r = some p ↔ r.sizes? names = some [p.line, p.column, p.offset] := by
  unfold ofRecord?
  constructor
  · intro read
    split at read
    · rename_i sizes
      obtain rfl := Option.some.inj read
      exact sizes
    · contradiction
  · intro sizes
    rw [sizes]

theorem recordLimited {r : Record} {p : Position} (read : ofRecord? r = some p) :
    p.line < Record.sizeLimit ∧ p.column < Record.sizeLimit ∧ p.offset < Record.sizeLimit := by
  have limited := (Record.sizesLimited (recordTells.mp read)).2
  simpa using limited

theorem recordWritten (p : Position) : ofRecord? p.toRecord = some p ↔
    p.line < Record.sizeLimit ∧ p.column < Record.sizeLimit ∧ p.offset < Record.sizeLimit := by
  rw [recordTells, toRecord, Record.sizesWritten (by decide)]
  simp [names]

end Position
end Readahead
