import EnumForms.Proofs.Encoding
import EnumForms.Proofs.Meaning
import EnumForms.Proofs.Printing

/-!
The source of forms as a whole. Functions have a source whatever they hold, and a raw term is left out or
only named. An export attribute is taken apart, though the reader takes any term for its value: there is
no source if the value is not made of pairs of a name and an arity.
-/
namespace EnumForms

open Attempt (reason? reason?_eq_some reason?_eq_none)

def Term.IsExport (t : Term) : Prop :=
  ∃ name arity, t = .tuple [.atom name, arity] ∨ t = .list [.atom name, arity]

/-- Exports in a tuple or a list, or an empty text, which is a list of none. -/
def Term.ListsExports (t : Term) : Prop :=
  t = .str [] ∨ ∃ ms, (t = .tuple ms ∨ t = .list ms) ∧ ∀ m ∈ ms, m.IsExport

/-- If the form is an export attribute, its value lists exports. -/
def Form.ListsExports (f : Form) : Prop :=
  ∀ pos value, f = .attribute pos (lit "export") value → value.ListsExports

/-- There is a value if and only if `p` holds, and no integer is the reason if there is none. -/
structure Hinges (x : Except SourceError α) (p : Prop) : Prop where
  ok_iff : (∃ a, x = .ok a) ↔ p
  ne_overlong : x ≠ .error .overlong

namespace Hinges

variable {x : Except SourceError α} {p q : Prop}

theorem ok (a : α) (hp : p) : Hinges (.ok a) p := ⟨iff_of_true ⟨a, rfl⟩ hp, nofun⟩

theorem error {e : SourceError} (he : e ≠ .overlong) (hp : ¬ p) :
    Hinges (.error e : Except SourceError α) p :=
  ⟨iff_of_false (fun ⟨_, h⟩ => nomatch h) hp, fun h => he (Except.error.inj h)⟩

theorem congr (h : Hinges x p) (hpq : p ↔ q) : Hinges x q := ⟨h.ok_iff.trans hpq, h.ne_overlong⟩

theorem bind_ok (h : Hinges x p) (g : α → β) : Hinges (x >>= fun a => .ok (g a)) p := by
  obtain ⟨hok, hne⟩ := h
  cases x with
  | ok a => exact .ok (g a) (hok.1 ⟨a, rfl⟩)
  | error e => exact .error (fun he => hne (he ▸ rfl)) fun hp => nomatch hok.2 hp

theorem mapM {f : α → Except SourceError β} {p : α → Prop} {xs : List α}
    (h : ∀ x ∈ xs, Hinges (f x) (p x)) : Hinges (xs.mapM f) (∀ x ∈ xs, p x) where
  ok_iff := by
    rw [← reason?_eq_none, Attempt.reason?_mapM, List.findSome?_eq_none_iff]
    exact forall₂_congr fun x hx => reason?_eq_none.trans (h x hx).ok_iff
  ne_overlong he := by
    rw [← reason?_eq_some, Attempt.reason?_mapM] at he
    obtain ⟨x, hx, he⟩ := List.exists_of_findSome?_eq_some he
    exact (h x hx).ne_overlong (reason?_eq_some.1 he)

end Hinges

theorem Term.hasOverlong_member {t m : Term} {ms : List Term} (ho : t.hasOverlong = false)
    (ht : t.members? = some ms) (hm : m ∈ ms) : m.hasOverlong = false := by
  cases t with
  | atom | int | float | bool | nothing => cases ht
  | tuple _ | list _ =>
    cases ht
    exact anyOverlong_eq_false_iff.1 ho m hm
  | str s =>
    cases ht
    obtain ⟨c, -, rfl⟩ := List.mem_map.1 hm
    rfl

/-! ## Exports -/

theorem hinges_parts {t : Term} {ms : List Term} (ht : t.members? = some ms)
    (ho : t.hasOverlong = false) :
    Hinges (exportSource t) (∃ name arity, ms = [.atom name, arity]) := by
  unfold exportSource
  rw [ht]
  split
  case h_1 h => cases h
  case h_2 name arity h =>
    cases h
    rw [Term.hasOverlong_member ho ht (by simp)]
    exact .ok _ ⟨name, arity, rfl⟩
  case h_3 hname h =>
    cases h
    exact .error (by decide) (by simpa using hname)
  case h_4 hpair _ h =>
    cases h
    exact .error (by decide) fun ⟨name, arity, hm⟩ => hpair name arity hm

theorem hinges_exportSource {t : Term} (ho : t.hasOverlong = false) :
    Hinges (exportSource t) t.IsExport := by
  cases t with
  | atom | int | float | bool | nothing => exact .error (by decide) (by simp [Term.IsExport])
  | tuple ms | list ms => exact (hinges_parts rfl ho).congr <| by simp [Term.IsExport]
  | str s => exact (hinges_parts rfl ho).congr <| by simp [Term.IsExport, List.map_eq_cons_iff]

theorem hinges_members {pos : Position} {value : Term} {ms : List Term}
    (hv : value.members? = some ms) (ho : value.hasOverlong = false) :
    Hinges (Form.source (.attribute pos (lit "export") value)) (∀ m ∈ ms, m.IsExport) := by
  rw [Form.source, if_pos rfl, hv]
  exact (Hinges.mapM fun m hm => hinges_exportSource (Term.hasOverlong_member ho hv hm)).bind_ok _

theorem hinges_exports {pos : Position} {value : Term} (ho : value.hasOverlong = false) :
    Hinges (Form.source (.attribute pos (lit "export") value)) value.ListsExports := by
  cases value with
  | atom | int | float | bool | nothing =>
    rw [Form.source, if_pos rfl]
    exact .error (by decide) (by simp [Term.ListsExports])
  | tuple ms | list ms => exact (hinges_members rfl ho).congr <| by simp [Term.ListsExports]
  | str s =>
    refine (hinges_members rfl ho).congr ?_
    simp [Term.ListsExports, Term.IsExport, List.eq_nil_iff_forall_not_mem]

/-! ## The other forms -/

theorem Clause.hasOverlong_of_toTerm {c : Clause} (ho : c.toTerm.hasOverlong = false) :
    c.hasOverlong = false := by
  simp only [toTerm, Term.hasOverlong, Term.anyOverlong, Expr.anyOverlong_toTerms,
    Term.anyOverlong_eq_false_iff, List.forall_mem_map, Bool.or_eq_false_iff] at ho
  obtain ⟨-, -, ⟨hp, -⟩, hg, ⟨hb, -⟩, -⟩ := ho
  have hg : c.guards.any Expr.anyOverlong = false :=
    List.any_eq_false.2 fun g hm => by simp [(hg g hm).1]
  rw [hasOverlong, hp, hg, hb]
  rfl

theorem FunctionDef.hasOverlong_of_toTerm {f : FunctionDef} (ho : f.toTerm.hasOverlong = false) :
    f.clauses.any Clause.hasOverlong = false := by
  simp only [toTerm, Term.hasOverlong, Term.anyOverlong, Bool.or_eq_false_iff,
    Term.anyOverlong_eq_false_iff, List.forall_mem_map] at ho
  obtain ⟨-, -, -, -, ho, -⟩ := ho
  exact List.any_eq_false.2 fun c hc => by simp [Clause.hasOverlong_of_toTerm (ho c hc)]

theorem Form.rawFunction?_member {t arity : Term} {name : Text}
    (h : rawFunction? t = some (name, arity)) : ∃ ms, t.members? = some ms ∧ arity ∈ ms := by
  unfold rawFunction? at h
  split at h
  case h_3 => cases h
  all_goals
    split at h
    case h_3 => cases h
    all_goals
      obtain ⟨-, h⟩ := Option.ite_none_right_eq_some.1 h
      cases h
      exact ⟨_, rfl, by simp⟩

theorem hinges_source {f : Form} (ho : f.toTerm.hasOverlong = false) :
    Hinges f.source f.ListsExports := by
  rcases f with ⟨pos, name, value⟩ | f | pos | t
  · by_cases hn : name = lit "export"
    · subst hn
      have ho : value.hasOverlong = false := by
        simp_all [Form.toTerm, Term.hasOverlong, Term.anyOverlong]
      exact (hinges_exports ho).congr <| by simp [Form.ListsExports]
    · rw [Form.source, if_neg hn]
      exact .ok _ (by simp [Form.ListsExports, hn])
  · rw [Form.source, FunctionDef.hasOverlong_of_toTerm ho]
    exact .ok _ (by simp [Form.ListsExports])
  · exact .ok _ (by simp [Form.ListsExports])
  · have hraw : (Form.raw t).ListsExports := by simp [Form.ListsExports]
    cases hr : Form.rawFunction? t with
    | none =>
      rw [Form.source, hr]
      exact .ok _ hraw
    | some found =>
      obtain ⟨ms, hms, hm⟩ := Form.rawFunction?_member hr
      rw [Form.source, hr]
      dsimp only
      rw [Term.hasOverlong_member ho hms hm]
      exact .ok _ hraw

theorem Form.hinges_sourceText {fs : List Form} (ho : ∀ f ∈ fs, f.toTerm.hasOverlong = false) :
    Hinges (sourceText fs) (∀ f ∈ fs, f.ListsExports) :=
  (Hinges.mapM fun f hf => hinges_source (ho f hf)).bind_ok _

/-- The forms read from a text without overlong integers have a source if and only if the value of every
export attribute lists exports. -/
theorem sourceText_readForms_iff (s : Text) (ts : List Term) (hr : readTerms s = .ok ts)
    (ho : ∀ t ∈ ts, t.hasOverlong = false) :
    ∃ fs, readForms s = .ok fs ∧
      ((∃ t, Form.sourceText fs = .ok t) ↔
        ∀ pos value, .attribute pos (lit "export") value ∈ fs → value.ListsExports) ∧
      Form.sourceText fs ≠ .error .overlong := by
  have hf : ∀ f ∈ ts.map Form.ofTerm, f.toTerm.hasOverlong = false := by
    simpa [Form.toTerm_ofTerm] using ho
  obtain ⟨hiff, hne⟩ := Form.hinges_sourceText hf
  refine ⟨ts.map Form.ofTerm, by rw [readForms, hr]; rfl, hiff.trans ?_, hne⟩
  exact ⟨fun h pos value hm => h _ hm pos value rfl, fun h f hf pos value he => h pos value (he ▸ hf)⟩

def exportLists : Text :=
  lit "\x7battribute,1,export,[\x7bf,1\x7d,[g,2]]\x7d.\x7battribute,2,export,\"\"\x7d." ++
    lit "\x7bfunction,3,f,1,[\x7bclause,3,[\x7bvar,3,'X'\x7d],[],[\x7bvar,3,'X'\x7d]\x7d]\x7d." ++
    lit "\x7bfunction,4,g,2,oops\x7d."

def exportListsSource : Text :=
  lit "-export([f/1, g/2]).\n\n-export([]).\n\nf(X) ->\n    X.\n\n" ++
    lit "%% g/2: corpo nao representavel\n"

theorem sourceText_exportLists : ∃ ts fs, readTerms exportLists = .ok ts ∧
    (∀ t ∈ ts, t.hasOverlong = false) ∧ readForms exportLists = .ok fs ∧
    (∀ pos value, .attribute pos (lit "export") value ∈ fs → value.ListsExports) ∧
    Form.sourceText fs = .ok exportListsSource := by
  have hrun : ((readTerms exportLists).toOption.map fun ts =>
      (ts.all fun t => !t.hasOverlong, (Form.sourceText (ts.map Form.ofTerm)).toOption)) =
        some (true, some exportListsSource) := by decide +kernel
  obtain ⟨ts, hts, hrun⟩ := Option.map_eq_some_iff.1 hrun
  obtain ⟨hall, hsource⟩ := Prod.mk.inj hrun
  have hr := Attempt.toOption_eq_some.1 hts
  have ho : ∀ t ∈ ts, t.hasOverlong = false := by simpa using hall
  obtain ⟨fs, hfs, hiff, -⟩ := sourceText_readForms_iff exportLists ts hr ho
  have he : fs = ts.map Form.ofTerm := by
    rw [readForms, hr] at hfs
    exact (Except.ok.inj hfs).symm
  have hsource : Form.sourceText fs = .ok exportListsSource :=
    Attempt.toOption_eq_some.1 (he ▸ hsource)
  exact ⟨ts, fs, hr, ho, hfs, hiff.1 ⟨_, hsource⟩, hsource⟩

def exportNumber : Text := lit "\x7battribute,1,export,5\x7d."

theorem not_sourceText_exportNumber : ∃ ts fs, readTerms exportNumber = .ok ts ∧
    (∀ t ∈ ts, t.hasOverlong = false) ∧ readForms exportNumber = .ok fs ∧
    Form.sourceText fs = .error .exportsWithoutMembers := by
  have hrun : ((readTerms exportNumber).toOption.map fun ts =>
      (ts.all fun t => !t.hasOverlong, reason? (Form.sourceText (ts.map Form.ofTerm)))) =
        some (true, some .exportsWithoutMembers) := by decide +kernel
  obtain ⟨ts, hts, hrun⟩ := Option.map_eq_some_iff.1 hrun
  obtain ⟨hall, hsource⟩ := Prod.mk.inj hrun
  have hr := Attempt.toOption_eq_some.1 hts
  refine ⟨ts, ts.map Form.ofTerm, hr, by simpa using hall, ?_, reason?_eq_some.1 hsource⟩
  rw [readForms, hr]
  rfl

end EnumForms
