import CellMachine.Machine.Labels
import Std.Data.TreeMap.Lemmas

/-!
The label index of a store finds what a search from the first slot finds. The
index is made in one pass that keeps the first slot of every label, so after any
part of the store it answers like a search through that part.
-/

namespace CellMachine

variable {ι : Type}

/-- The instruction stands under the given label. -/
def Instruction.Carries (i : Instruction ι) (label : String) : Prop :=
  ∃ r, i.label = some r ∧ r.text = label

theorem Instruction.hasLabel_iff {i : Instruction ι} {label : String} :
    i.hasLabel label = true ↔ i.Carries label := by
  unfold hasLabel Carries
  rw [Option.any_eq_true]
  simp only [beq_iff_eq]

theorem Instruction.not_carries_empty (i : Instruction ι) : ¬ i.Carries "" := by
  rintro ⟨r, _, hempty⟩
  exact r.nonempty hempty

namespace LabelIndex

/-- What one slot adds to the index: its label, if that is new. -/
def visit (index : LabelIndex) (i : Instruction ι) (slot : Nat) : LabelIndex :=
  match i.label with
  | some label => index.insertIfNew label.text slot
  | none => index

theorem ofStore_eq (store : Array (Instruction ι)) :
    ofStore store = store.toList.zipIdx.foldl (fun index p => index.visit p.1 p.2) ∅ := rfl

/-- A label that has a slot keeps it. -/
theorem getElem?_visit (index : LabelIndex) (i : Instruction ι) (slot : Nat) (label : String) :
    (index.visit i slot)[label]? =
      index[label]?.or (if i.hasLabel label then some slot else none) := by
  unfold visit Instruction.hasLabel
  cases i.label with
  | none => simp
  | some r =>
      rw [Std.TreeMap.getElem?_insertIfNew]
      simp only [Std.LawfulEqCmp.compare_eq_iff_eq]
      by_cases hsame : r.text = label
      · subst hsame
        by_cases hknown : r.text ∈ index
        · rw [if_neg (fun h => h.2 hknown), Std.TreeMap.getElem?_eq_some_getElem hknown]
          rfl
        · rw [if_pos ⟨rfl, hknown⟩, Std.TreeMap.getElem?_eq_none hknown]
          simp
      · rw [if_neg (fun h => hsame h.1)]
        simp [hsame]

/-- After a pass over some slots the index answers what it answered before, and
for other labels what a search through these slots finds. The induction is on the
slots, for any index and any first slot. -/
theorem getElem?_foldl_visit (store : List (Instruction ι)) (index : LabelIndex) (first : Nat)
    (label : String) :
    ((store.zipIdx first).foldl (fun index p => index.visit p.1 p.2) index)[label]? =
      index[label]?.or ((store.findIdx? (·.hasLabel label)).map (first + ·)) := by
  induction store generalizing index first with
  | nil => simp
  | cons i rest ih =>
      rw [List.zipIdx_cons, List.foldl_cons, ih, getElem?_visit, Option.or_assoc,
        List.findIdx?_cons]
      congr 1
      cases i.hasLabel label with
      | true => simp
      | false =>
          simp only [Bool.false_eq_true, if_false, Option.none_or, Option.map_map]
          congr 1
          funext slot
          simp only [Function.comp_apply]
          omega

theorem getElem?_ofStore (store : Array (Instruction ι)) (label : String) :
    (ofStore store)[label]? = store.findIdx? (·.hasLabel label) := by
  rw [ofStore_eq, getElem?_foldl_visit, ← List.findIdx?_toArray, Array.toArray_toList]
  simp

/-- What slots with these labels add to an index, the first of them being `first`. -/
def ofLabels : List (Option Remark) → Nat → LabelIndex → LabelIndex
  | [], _, index => index
  | none :: rest, first, index => ofLabels rest (first + 1) index
  | some label :: rest, first, index =>
      ofLabels rest (first + 1) (index.insertIfNew label.text first)

theorem foldl_visit_eq_ofLabels (store : List (Instruction ι)) (first : Nat)
    (index : LabelIndex) :
    (store.zipIdx first).foldl (fun index p => index.visit p.1 p.2) index =
      ofLabels (store.map Instruction.label) first index := by
  induction store generalizing first index with
  | nil => rfl
  | cons i rest ih =>
      rw [List.zipIdx_cons, List.foldl_cons, ih, List.map_cons]
      unfold visit
      cases i.label <;> rfl

/-- Of the instructions only their labels matter. -/
theorem ofStore_congr {s t : Array (Instruction ι)}
    (h : s.map Instruction.label = t.map Instruction.label) : ofStore s = ofStore t := by
  rw [ofStore_eq, ofStore_eq, foldl_visit_eq_ofLabels, foldl_visit_eq_ofLabels,
    ← Array.toList_map, ← Array.toList_map, h]

theorem ofLabels_replicate_none (count first : Nat) (index : LabelIndex) :
    ofLabels (List.replicate count none) first index = index := by
  induction count generalizing first with
  | zero => rfl
  | succ n ih => exact ih (first + 1)

theorem ofStore_padding (capacity : Nat) :
    ofStore (Array.replicate capacity (Instruction.padding : Instruction ι)) = ∅ := by
  rw [ofStore_eq, foldl_visit_eq_ofLabels, Array.toList_replicate, List.map_replicate]
  exact ofLabels_replicate_none ..

end LabelIndex

/-- Padding carries no label, so a program is searched as a whole store is. -/
theorem Program.findIdx?_padded (p : Program ι) (capacity : Nat) (label : String) :
    (p.padded capacity).findIdx? (·.hasLabel label) =
      p.instructions.findIdx? (·.hasLabel label) := by
  unfold padded
  rw [List.findIdx?_toArray, List.findIdx?_append]
  have hpadding : (List.replicate (capacity - p.length) (Instruction.padding (ι := ι))).findIdx?
      (·.hasLabel label) = none := by
    rw [List.findIdx?_eq_none_iff]
    intro i member
    obtain ⟨_, rfl⟩ := List.mem_replicate.mp member
    rfl
  rw [hpadding]
  simp

end CellMachine
