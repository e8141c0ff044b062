import EnumForms.Declaration
import Mathlib.Data.List.Basic

/-!
What a declaration does to the registry. The codes of an enum that is taken in go up from entry to
entry, and so they do in every table that declarations make.
-/
namespace EnumForms

namespace Entry

def Ascending (es : List Entry) : Prop := es.Pairwise fun a b => a.code < b.code

theorem le_code_of_ofTerm? {next : Int} {t : Term} {e : Entry} (h : ofTerm? next t = some e) :
    next ≤ e.code := by
  unfold ofTerm? at h
  split at h
  · cases h
    exact Int.le_refl next
  · split at h
    · next hle => cases h; exact hle
    · cases h
  · cases h

theorem ascending_of_listFrom? {next : Int} {ts : List Term} {es : List Entry}
    (h : listFrom? next ts = some es) : (∀ e ∈ es, next ≤ e.code) ∧ Ascending es := by
  -- the bound rises with every entry, so both parts are proved together
  induction ts generalizing next es with
  | nil =>
    cases h
    exact ⟨by simp, .nil⟩
  | cons t ts ih =>
    obtain ⟨e, he, h⟩ := Option.bind_eq_some_iff.1 h
    obtain ⟨rest, hr, h⟩ := Option.bind_eq_some_iff.1 h
    cases h
    have hle := le_code_of_ofTerm? he
    obtain ⟨hge, hasc⟩ := ih hr
    refine ⟨?_, .cons ?_ hasc⟩
    · intro x hx
      rcases List.mem_cons.1 hx with rfl | hx
      · exact hle
      · have := hge x hx
        omega
    · intro x hx
      have := hge x hx
      omega

theorem ascending_of_listOfTerm? {t : Term} {es : List Entry} (h : listOfTerm? t = some es) :
    Ascending es := by
  unfold listOfTerm? at h
  split at h
  · exact (ascending_of_listFrom? h).2
  · cases h
    exact .nil
  · cases h

end Entry

theorem Table.get?_of_mem_names {t : Table} {name : Text} (h : name ∈ t.names) :
    ∃ es, t.get? name = some es := by
  obtain ⟨p, hp, rfl⟩ := List.mem_map.1 h
  rw [Table.get?]
  cases hl : t.enums.lookup p.1 with
  | some es => exact ⟨es, rfl⟩
  | none => exact absurd (List.lookup_eq_none_iff.1 hl p hp) (by simp)

theorem Table.mem_names_of_get? {t : Table} {name : Text} {es : List Entry}
    (h : t.get? name = some es) : name ∈ t.names := by
  by_contra hn
  have hl : t.enums.lookup name = none := by
    refine List.lookup_eq_none_iff.2 fun p hp => ?_
    rw [bne_iff_ne]
    rintro rfl
    exact hn (List.mem_map_of_mem hp)
  cases hl.symm.trans h

namespace Registry

/-- A declaration is taken in, or left out for one of three reasons. -/
inductive Adds (r : Registry) (d : Declaration) : Registry → Prop where
  | accepted {name : Text} {entries : Term} {es : List Entry} :
      d.payload = .tuple [.atom name, entries] → r.table.contains name = false →
      Entry.listOfTerm? entries = some es →
      Adds r d { r with
        table := r.table.insert name es
        journal := r.journal ++ [.accepted name es.length] }
  | duplicate {name : Text} {entries : Term} :
      d.payload = .tuple [.atom name, entries] → r.table.contains name = true →
      Adds r d (r.reject (.duplicate (.line d.line) name) (.duplicated name d.line))
  | invalid {name : Text} {entries : Term} :
      d.payload = .tuple [.atom name, entries] → r.table.contains name = false →
      Entry.listOfTerm? entries = none →
      Adds r d (r.reject (.invalid (.line d.line) name) (.discarded name d.line))
  | malformed : (∀ name entries, d.payload ≠ .tuple [.atom name, entries]) →
      Adds r d (r.reject (.malformed (.line d.line)) (.rejected d.line))

theorem parts?_eq_some {d : Declaration} {p : Term × Term} (h : d.parts? = some p) :
    d.payload = .tuple [p.1, p.2] := by
  unfold Declaration.parts? at h
  split at h
  · next hp => cases h; exact hp
  · cases h

theorem adds_add (r : Registry) (d : Declaration) : Adds r d (r.add d) := by
  unfold add
  split
  · next name entries hp =>
    have hd := parts?_eq_some hp
    split
    · next hc => exact .duplicate hd hc
    · next hc =>
      rw [Bool.not_eq_true] at hc
      unfold normalizeEntries
      cases he : Entry.listOfTerm? entries with
      | some es => exact .accepted hd hc he
      | none => exact .invalid hd hc he
  · next hn =>
    refine .malformed fun name entries hd => ?_
    exact hn name entries (by rw [Declaration.parts?, hd])

def Described (r : Registry) : Prop :=
  ∀ name es, r.table.get? name = some es → ∃ t, Entry.listOfTerm? t = some es

theorem Adds.described {r r' : Registry} {d : Declaration} (ha : Adds r d r')
    (h : r.Described) : r'.Described := by
  cases ha with
  | @accepted name entries es hd hc he =>
    intro other es' hg
    rw [Table.get?_insert] at hg
    split at hg
    · cases hg
      exact ⟨entries, he⟩
    · exact h other es' hg
  | duplicate | invalid | malformed => exact h

theorem described_addAll {r : Registry} (h : r.Described) (ds : List Declaration) :
    (r.addAll ds).Described := by
  induction ds generalizing r with
  | nil => exact h
  | cons d ds ih => exact ih ((adds_add r d).described h)

theorem described_empty : empty.Described := by
  intro name es h
  cases h

end Registry

end EnumForms
