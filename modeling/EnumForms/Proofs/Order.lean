import EnumForms.Proofs.Grammar
import Mathlib.Data.List.Forall2

/-!
The order in which the parts of a tree get their values: from the inside out and from left to right.
The first part without a value is what is wrong with the tree. If there is none, the leaves of the
term are the values of the leaves of the tree.
-/
namespace EnumForms

namespace Node

open Attempt

def isLeaf : Node → Bool
  | .literal .. | .strings .. => true
  | _ => false

mutual

def parts : Node → List Node
  | .literal l text place => [.literal l text place]
  | .strings place texts => [.strings place texts]
  | .tuple place items => partsOf items ++ [.tuple place items]
  | .list place items => partsOf items ++ [.list place items]
  | .listWithTail place items tail =>
    partsOf items ++ (parts tail ++ [.listWithTail place items tail])

def partsOf : List Node → List Node
  | [] => []
  | n :: ns => parts n ++ partsOf ns

end

def fault? (ns : List Node) : Option ReadError := ns.findSome? fun n => reason? n.value

theorem fault?_append (ns ms : List Node) : fault? (ns ++ ms) = (fault? ns).or (fault? ms) :=
  List.findSome?_append

theorem fault?_singleton (n : Node) : fault? [n] = reason? n.value := by
  rw [fault?, List.findSome?_singleton]

mutual

theorem fault?_parts (n : Node) : fault? (parts n) = reason? n.value := by
  cases n with
  | literal | strings => exact fault?_singleton _
  | tuple place items | list place items =>
    rw [parts, fault?_append, fault?_partsOf items, fault?_singleton, value]
    exact reason?_or_bind _ _
  | listWithTail place items tail =>
    rw [parts, fault?_append, fault?_append, fault?_partsOf items, fault?_parts tail,
      fault?_singleton, value]
    cases values items with
    | error e => rfl
    | ok ts => exact reason?_or_bind tail.value _

/-- Trees have the fault of the first of their parts that has no value. -/
theorem fault?_partsOf (ns : List Node) : fault? (partsOf ns) = reason? (values ns) := by
  cases ns with
  | nil => rfl
  | cons n ns =>
    rw [partsOf, fault?_append, fault?_parts n, fault?_partsOf ns, values]
    cases n.value with
    | error e => rfl
    | ok t => cases values ns <;> rfl

end

theorem values_eq_error {ns before after : List Node} {n : Node} {e : ReadError}
    (hs : partsOf ns = before ++ n :: after) (hb : ∀ m ∈ before, ∃ t, m.value = .ok t)
    (hn : n.value = .error e) : values ns = .error e := by
  have hbefore : fault? before = none :=
    List.findSome?_eq_none_iff.2 fun m hm => reason?_eq_none.2 (hb m hm)
  rw [← reason?_eq_some, ← fault?_partsOf, hs, fault?_append, hbefore, Option.none_or, fault?,
    List.findSome?_cons, hn]
  rfl

theorem exists_values_iff {ns : List Node} :
    (∃ ts, values ns = .ok ts) ↔ ∀ n ∈ partsOf ns, ∃ t, n.value = .ok t := by
  rw [← reason?_eq_none, ← fault?_partsOf, fault?, List.findSome?_eq_none_iff]
  simp only [reason?_eq_none]

end Node

/-! ## Leaves -/

namespace Term

mutual

/-- What is in a term and is no tuple and no list, from left to right. -/
def leaves : Term → List Term
  | .tuple items => leavesOf items
  | .list items => leavesOf items
  | t => [t]

def leavesOf : List Term → List Term
  | [] => []
  | t :: ts => leaves t ++ leavesOf ts

end

theorem leavesOf_append (ts us : List Term) : leavesOf (ts ++ us) = leavesOf ts ++ leavesOf us := by
  induction ts with
  | nil => rfl
  | cons t ts ih => rw [List.cons_append, leavesOf, ih, leavesOf, List.append_assoc]

end Term

theorem Literal.leaves_value {l : Literal} {place : Place} {text : Text} {t : Term}
    (h : l.value place text = .ok t) : t.leaves = [t] := by
  cases l with
  | atom | float =>
    cases h
    rfl
  | int =>
    rw [value] at h
    split at h <;> cases h
    rfl
  | quotedAtom | basedInt | char =>
    obtain ⟨-, -, rfl⟩ := Attempt.map_eq_ok.1 h
    rfl

namespace Node

abbrev Valued : List Node → List Term → Prop := List.Forall₂ fun n t => n.value = .ok t

theorem Valued.append {ns ms : List Node} {ts us : List Term} (h : Valued ns ts)
    (hm : Valued ms us) : Valued (ns ++ ms) (ts ++ us) := List.rel_append h hm

theorem Valued.getElem? {ns ms : List Node} {n : Node} {ts : List Term}
    (h : Valued (ns ++ n :: ms) ts) : ∃ t, ts[ns.length]? = some t ∧ n.value = .ok t := by
  induction ns generalizing ts with
  | nil =>
    cases h with
    | cons hn _ => exact ⟨_, rfl, hn⟩
  | cons m ns ih =>
    cases h with
    | cons _ h => simpa using ih h

mutual

theorem valued_leaves {n : Node} {t : Term} (h : n.value = .ok t) :
    Valued ((parts n).filter isLeaf) t.leaves := by
  cases n with
  | literal l text place =>
    rw [Literal.leaves_value h]
    exact .cons h .nil
  | strings place texts =>
    have hv := h
    obtain ⟨s, -, rfl⟩ := Attempt.map_eq_ok.1 h
    exact .cons hv .nil
  | tuple place items | list place items =>
    obtain ⟨ts, hts, ht⟩ := Attempt.bind_eq_ok.1 h
    cases ht
    rw [parts, List.filter_append]
    simpa [isLeaf, Term.leaves] using valued_leavesOf hts
  | listWithTail place items tail =>
    obtain ⟨ts, hts, ht⟩ := Attempt.bind_eq_ok.1 h
    obtain ⟨u, hu, ht⟩ := Attempt.bind_eq_ok.1 ht
    split at ht <;> cases ht
    next more =>
    have htail := valued_leaves hu
    rw [Term.leaves] at htail
    rw [parts, Term.leaves, Term.leavesOf_append, List.filter_append, List.filter_append]
    simpa [isLeaf] using (valued_leavesOf hts).append htail

/-- The leaves of the terms are the values of the leaves of the trees. -/
theorem valued_leavesOf {ns : List Node} {ts : List Term} (h : values ns = .ok ts) :
    Valued ((partsOf ns).filter isLeaf) (Term.leavesOf ts) := by
  cases ns with
  | nil =>
    cases h
    exact .nil
  | cons n ns =>
    obtain ⟨t, ht, h⟩ := Attempt.bind_eq_ok.1 h
    obtain ⟨ts, hts, h⟩ := Attempt.bind_eq_ok.1 h
    cases h
    rw [partsOf, List.filter_append, Term.leavesOf]
    exact (valued_leaves ht).append (valued_leavesOf hts)

end

end Node

theorem Derives.literal_mem_parts {s : Symbol} {us : List Token} {ns : List Node}
    (h : Derives s us ns) {t : Token} {l : Literal} (ht : t ∈ us) (hk : t.kind = .literal l) :
    .literal l t.text t.place ∈ Node.partsOf ns := by
  have other {u : Token} {k : Kind} (hu : u.kind = k) (hn : k ≠ .literal l) : t ≠ u := by
    rintro rfl
    exact hn (hu.symm.trans hk)
  induction h with
  | noForm => cases ht
  | forms _ _ ihu ihv =>
    rw [Node.partsOf, List.mem_append]
    rcases List.mem_append.1 ht with ht | ht
    · exact .inl (by simpa [Node.partsOf] using ihu ht)
    · exact .inr (ihv ht)
  | form _ hd ih =>
    simp only [List.mem_append, List.mem_singleton, other hd nofun, or_false] at ht
    exact ih ht
  | literal hl =>
    obtain rfl := List.mem_singleton.1 ht
    cases hk.symm.trans hl
    simp [Node.partsOf, Node.parts]
  | strings hs => cases (hs t ht).symm.trans hk
  | ofTuple _ ih | ofList _ ih => exact ih ht
  | emptyTuple ho hc | emptyList ho hc => simp [other ho nofun, other hc nofun] at ht
  | tuple ho _ hc ih | list ho _ hc ih =>
    have hu := ih (by simpa [other ho nofun, other hc nofun] using ht)
    simp [Node.partsOf, Node.parts, hu]
  | listWithTail ho _ _ hc ihu ihv =>
    simp only [List.mem_append, List.mem_cons, List.not_mem_nil, other ho nofun, other hc nofun,
      or_false, false_or] at ht
    rcases ht with ht | ht
    · simp [Node.partsOf, Node.parts, ihu ht]
    · have hv := ihv ht
      simp only [Node.partsOf, List.append_nil] at hv
      simp [Node.partsOf, Node.parts, hv]
  | tail hb _ ih => exact ih (by simpa [other hb nofun] using ht)
  | one _ ih => exact ih ht
  | more _ hc _ ihu ihv =>
    simp only [List.mem_append, List.mem_cons, other hc nofun, false_or] at ht
    rw [Node.partsOf, List.mem_append]
    rcases ht with ht | ht
    · exact .inl (by simpa [Node.partsOf] using ihu ht)
    · exact .inr (ihv ht)

end EnumForms
