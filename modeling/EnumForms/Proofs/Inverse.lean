import EnumForms.Proofs.Units

/-!
There and back: the codes of an enum all differ, so a code gives its key back. A key gives its code
back unless an entry before it has the same name.
-/
namespace EnumForms

theorem nodup_iff_notMem_take {α : Type*} {ks : List α} :
    ks.Nodup ↔ ∀ (i : Nat) k, ks[i]? = some k → k ∉ ks.take i := by
  rw [List.Nodup, List.pairwise_iff_getElem]
  constructor
  · intro h i k hk hm
    obtain ⟨hi, rfl⟩ := List.getElem?_eq_some_iff.1 hk
    obtain ⟨j, hj, he⟩ := List.mem_take_iff_getElem.1 hm
    exact h j i (by omega) hi (by omega) he
  · intro h i j hi hj hij he
    refine h j ks[j] (List.getElem?_eq_getElem hj) ?_
    exact List.mem_take_iff_getElem.2 ⟨i, by omega, he⟩

namespace Entry

variable {es : List Entry} {e : Entry} {i : Nat}

theorem find?_code (h : Ascending es) (hi : es[i]? = some e) :
    es.find? (·.code = e.code) = some e := by
  induction es generalizing i with
  | nil => simp at hi
  | cons x es ih =>
    cases i with
    | zero =>
      cases hi
      simp
    | succ i =>
      rw [List.getElem?_cons_succ] at hi
      have hlt := (List.pairwise_cons.1 h).1 e (List.mem_of_getElem? hi)
      have hx : x.code ≠ e.code := by omega
      rw [List.find?_cons_of_neg (by simp [hx])]
      exact ih (List.pairwise_cons.1 h).2 hi

/-- The name of an entry gives its code if and only if no entry before it has that name. -/
theorem find?_name (h : Ascending es) (hi : es[i]? = some e) :
    ∃ c, (es.find? (·.name = e.name)).map (·.code) = some c ∧
      (c = e.code ↔ e.name ∉ (es.map (·.name)).take i) := by
  induction es generalizing i with
  | nil => simp at hi
  | cons x es ih =>
    cases i with
    | zero =>
      cases hi
      exact ⟨e.code, by simp, by simp⟩
    | succ i =>
      rw [List.getElem?_cons_succ] at hi
      have hlt := (List.pairwise_cons.1 h).1 e (List.mem_of_getElem? hi)
      by_cases hx : x.name = e.name
      -- the name is found here, with a code below that of the entry
      · refine ⟨x.code, by simp [hx], ?_⟩
        have hne : x.code ≠ e.code := by omega
        simp [hx, hne]
      · obtain ⟨c, hc, hn⟩ := ih (List.pairwise_cons.1 h).2 hi
        refine ⟨c, by simp [hx, hc], ?_⟩
        rw [hn]
        simp [Ne.symm hx]

end Entry

namespace Module

variable {m : Module} {t : Table} {enum : Text} {es : List Entry}

structure Lists (m : Module) (enum : Text) (ks : List Text) (cs : List Int) : Prop where
  keys : m.access .keys [.atom enum] = .ok (.list (ks.map .atom))
  values : m.access .values [.atom enum] = .ok (.list (cs.map .int))

theorem Serves.lists (h : m.Serves t) (he : t.get? enum = some es) :
    m.Lists enum (Table.keys es) (Table.codes es) := by
  have hu : t.entriesOf? (.atom enum) = some es := he
  obtain ⟨d₁, hk⟩ := h.access_keys (.atom enum)
  obtain ⟨d₂, hv⟩ := h.access_values (.atom enum)
  rw [hu] at hk hv
  exact ⟨hk, hv⟩

theorem Serves.toAtom_int (h : m.Serves t) (he : t.get? enum = some es) {c : Int} {e : Entry}
    (hf : es.find? (·.code = c) = some e) :
    m.access .toAtom [.atom enum, .int c] = .ok (.atom e.name) := by
  have hu : t.entriesOf? (.atom enum) = some es := he
  have hn : Table.nameOf? es (.int c) = some e.name := by
    rw [Table.nameOf?, hf, Option.map_some]
  obtain ⟨d, ha⟩ := h.access_toAtom (.atom enum) (.int c)
  rw [ha, hu, Option.bind_some, hn]
  rfl

theorem Serves.toInt_atom (h : m.Serves t) (he : t.get? enum = some es) {k : Text} {c : Int}
    (hf : (es.find? (·.name = k)).map (·.code) = some c) :
    m.access .toInt [.atom enum, .atom k] = .ok (.int c) := by
  have hu : t.entriesOf? (.atom enum) = some es := he
  have hc : Table.codeOf? es (.atom k) = some c := hf
  obtain ⟨d, ha⟩ := h.access_toInt (.atom enum) (.atom k)
  rw [ha, hu, Option.bind_some, hc]
  rfl

theorem Serves.toAtom_toInt (h : m.Serves t) (he : t.get? enum = some es)
    (hasc : Entry.Ascending es) {i : Nat} {k : Text} {c : Int}
    (hk : (Table.keys es)[i]? = some k) (hc : (Table.codes es)[i]? = some c) :
    m.access .toAtom [.atom enum, .int c] = .ok (.atom k) ∧
      (m.access .toInt [.atom enum, .atom k] = .ok (.int c) ↔ k ∉ (Table.keys es).take i) := by
  rw [Table.keys, List.getElem?_map, Option.map_eq_some_iff] at hk
  rw [Table.codes, List.getElem?_map, Option.map_eq_some_iff] at hc
  obtain ⟨e, hi, rfl⟩ := hk
  obtain ⟨e', hi', rfl⟩ := hc
  cases hi.symm.trans hi'
  obtain ⟨c, hf, hc⟩ := Entry.find?_name hasc hi
  refine ⟨h.toAtom_int he (Entry.find?_code hasc hi), ?_⟩
  rw [h.toInt_atom he hf, Table.keys, ← hc]
  simp

end Module

/-- In the module of a text that is transformed, the codes listed of an enum go up, every code leads
back to its key, and a key leads to its code if and only if it is listed for the first time there.
So both ways are inverse to each other if and only if no key is listed twice. -/
theorem toAtom_toInt_transformText (s : Text) (tr : Transformation) (h : transformText s = .ok tr)
    (enum : Text) (he : enum ∈ tr.table.names) :
    ∃ ks cs, tr.module.Lists enum ks cs ∧ ks.length = cs.length ∧ cs.Pairwise (· < ·) ∧
      (∀ (i : Nat) k c, ks[i]? = some k → cs[i]? = some c →
        tr.module.access .toAtom [.atom enum, .int c] = .ok (.atom k) ∧
        (tr.module.access .toInt [.atom enum, .atom k] = .ok (.int c) ↔ k ∉ ks.take i)) ∧
      (ks.Nodup ↔ ∀ (i : Nat) k c, ks[i]? = some k → cs[i]? = some c →
        tr.module.access .toInt [.atom enum, .atom k] = .ok (.int c) ∧
        tr.module.access .toAtom [.atom enum, .int c] = .ok (.atom k)) := by
  obtain ⟨es, hes⟩ := Table.get?_of_mem_names he
  obtain ⟨hasc, hm⟩ := serves_transformText h hes
  have hpoint := fun i k c => hm.toAtom_toInt hes hasc (i := i) (k := k) (c := c)
  refine ⟨_, _, hm.lists hes, by simp [Table.keys, Table.codes], hasc.map _ fun _ _ h => h, hpoint,
    ?_⟩
  rw [nodup_iff_notMem_take]
  constructor
  · intro hn i k c hk hc
    obtain ⟨ha, hi⟩ := hpoint i k c hk hc
    exact ⟨hi.2 (hn i k hk), ha⟩
  · intro hb i k hk
    obtain ⟨e, hi, -⟩ := Option.map_eq_some_iff.1 (List.getElem?_map.symm.trans hk)
    have hc : (Table.codes es)[i]? = some e.code := by simp [Table.codes, hi]
    exact (hpoint i k e.code hk hc).2.1 (hb i k e.code hk hc).1

def repeatedName : Text :=
  lit "\x7battribute,1,file,\x7b\"f\",1\x7d\x7d." ++ lit "\x7battribute,2,module,m\x7d." ++
    lit "\x7battribute,3,enum,\x7be,[a,a]\x7d\x7d." ++ lit "\x7beof,4\x7d."

theorem transformText_repeatedName : ∃ tr, transformText repeatedName = .ok tr ∧
    tr.table.get? (lit "e") = some [⟨lit "a", 0⟩, ⟨lit "a", 1⟩] := by
  have hb : ((transformText repeatedName).toOption.bind fun tr => tr.table.get? (lit "e")) =
      some [⟨lit "a", 0⟩, ⟨lit "a", 1⟩] := by decide +kernel
  obtain ⟨tr, ht, he⟩ := Option.bind_eq_some_iff.1 hb
  exact ⟨tr, Attempt.toOption_eq_some.1 ht, he⟩

theorem toAtom_toInt_transformText_repeatedName : ∃ tr, transformText repeatedName = .ok tr ∧
    lit "e" ∈ tr.table.names ∧
    ∃ ks cs, tr.module.Lists (lit "e") ks cs ∧ ks.length = cs.length ∧ cs.Pairwise (· < ·) ∧
      (∀ (i : Nat) k c, ks[i]? = some k → cs[i]? = some c →
        tr.module.access .toAtom [.atom (lit "e"), .int c] = .ok (.atom k) ∧
        (tr.module.access .toInt [.atom (lit "e"), .atom k] = .ok (.int c) ↔ k ∉ ks.take i)) ∧
      (ks.Nodup ↔ ∀ (i : Nat) k c, ks[i]? = some k → cs[i]? = some c →
        tr.module.access .toInt [.atom (lit "e"), .atom k] = .ok (.int c) ∧
        tr.module.access .toAtom [.atom (lit "e"), .int c] = .ok (.atom k)) := by
  obtain ⟨tr, ht, he⟩ := transformText_repeatedName
  have hn := Table.mem_names_of_get? he
  exact ⟨tr, ht, hn, toAtom_toInt_transformText repeatedName tr ht (lit "e") hn⟩

/-- Keys and codes need not be inverse to each other: the second of two equal keys leads to the
code of the first. -/
theorem not_inverse_of_repeatedName :
    ¬ ∀ (s : Text) (tr : Transformation) (enum : Text) (ks : List Text) (cs : List Int),
      transformText s = .ok tr → enum ∈ tr.table.names → tr.module.Lists enum ks cs →
      ∀ (i : Nat) k c, ks[i]? = some k → cs[i]? = some c →
        tr.module.access .toInt [.atom enum, .atom k] = .ok (.int c) ∧
        tr.module.access .toAtom [.atom enum, .int c] = .ok (.atom k) := by
  intro h
  obtain ⟨tr, ht, he⟩ := transformText_repeatedName
  have hm := (serves_transformText ht he).2
  have ha : tr.module.access .toInt [.atom (lit "e"), .atom (lit "a")] = .ok (.int 0) :=
    hm.toInt_atom he (by decide)
  have h1 := h repeatedName tr (lit "e") [lit "a", lit "a"] [0, 1] ht (Table.mem_names_of_get? he)
    (hm.lists he) 1 (lit "a") 1 rfl rfl
  rw [ha] at h1
  simp at h1

end EnumForms
