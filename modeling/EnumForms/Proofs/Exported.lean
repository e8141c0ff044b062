import EnumForms.Proofs.Assembly
import EnumForms.Proofs.Findings
import EnumForms.Proofs.JsonText
import EnumForms.Proofs.LineEnds
import EnumForms.Proofs.Lookup
import EnumForms.Proofs.Sources
import EnumForms.Proofs.Utf8
import EnumForms.Proofs.Written

/-!
The report in a file. It is written if nothing in it has a surrogate or too many digits, and then it is
read back from the file as it was. No name stands twice in an object of it, so no enum is lost on a
reader who keeps one member for each name.
-/
namespace EnumForms

open Text (encodable_lit)

namespace Json

open CodePoint (carriageReturn)

/-! ## What a document holds -/

/-- Nothing in the document has a surrogate or too many digits. -/
inductive Showable : Json → Prop where
  | null : Showable .null
  | bool (b : Bool) : Showable (.bool b)
  | int {i : Int} : Decimal.isOverlong i = false → Showable (.int i)
  | str {s : Text} : s.Encodable → Showable (.str s)
  | arr {js : List Json} : (∀ j ∈ js, Showable j) → Showable (.arr js)
  | obj {ms : List (Text × Json)} : (∀ m ∈ ms, m.1.Encodable) → (∀ m ∈ ms, Showable m.2) →
    Showable (.obj ms)

variable {js : List Json} {ms : List (Text × Json)} {level : Nat}

theorem showable_int_iff {i : Int} : (Json.int i).Showable ↔ Decimal.isOverlong i = false :=
  ⟨fun h => by cases h; assumption, .int⟩

theorem showable_str_iff {s : Text} : (Json.str s).Showable ↔ s.Encodable :=
  ⟨fun h => by cases h; assumption, .str⟩

theorem showable_arr_iff : (Json.arr js).Showable ↔ ∀ j ∈ js, j.Showable :=
  ⟨fun h => by cases h; assumption, .arr⟩

theorem showable_obj_iff : (Json.obj ms).Showable ↔ ∀ m ∈ ms, m.1.Encodable ∧ m.2.Showable := by
  rw [forall₂_and]
  exact ⟨fun h => by cases h; exact ⟨‹_›, ‹_›⟩, fun h => .obj h.1 h.2⟩

theorem anyOverlong_eq_false_iff : anyOverlong js = false ↔ ∀ j ∈ js, j.hasOverlong = false := by
  induction js with
  | nil => simp [anyOverlong]
  | cons j js ih => simp [anyOverlong, ih]

theorem anyMemberOverlong_eq_false_iff :
    anyMemberOverlong ms = false ↔ ∀ m ∈ ms, m.2.hasOverlong = false := by
  induction ms with
  | nil => simp [anyMemberOverlong]
  | cons m ms ih => simp [anyMemberOverlong, ih]

theorem encodable_stringText (s : Text) : (stringText s).Encodable ↔ s.Encodable := by
  have hb : CodePoint.backslash.isSurrogate = false := by decide
  refine Text.encodable_marked (fun c => ?_) (by decide)
  unfold stringPoint
  split
  · simp [hb]
  · split
    all_goals first
      | next h =>
        exact iff_of_true (encodable_lit _) (CodePoint.isSurrogate_of_lt (h.trans_lt (by decide)))
      | skip
    split
    · next hn =>
      refine iff_of_true ?_ (CodePoint.isSurrogate_of_lt (by omega))
      simp [Text.encodable_hex]
    · simp

theorem encodable_indent (level : Nat) : (indent level).Encodable :=
  Text.encodable_cons.2 ⟨by decide, Text.encodable_replicate _ (by decide)⟩

theorem encodable_itemsAt :
    (itemsAt level js).Encodable ↔ ∀ j ∈ js, (j.textAt level).Encodable := by
  induction js with
  | nil => simp [itemsAt]
  | cons j js ih => simp [itemsAt, encodable_indent, ih]

theorem encodable_membersAt : (membersAt level ms).Encodable ↔
    ∀ m ∈ ms, m.1.Encodable ∧ (m.2.textAt level).Encodable := by
  induction ms with
  | nil => simp [membersAt]
  | cons m ms ih => simp [membersAt, encodable_indent, encodable_stringText, ih, and_assoc]

theorem encodable_textAt_arr : (textAt level (.arr js)).Encodable ↔
    ∀ j ∈ js, (j.textAt (level + 1)).Encodable := by
  cases js with
  | nil => simp [textAt]
  | cons j js => simp [textAt, encodable_indent, encodable_itemsAt]

theorem encodable_textAt_obj : (textAt level (.obj ms)).Encodable ↔
    ∀ m ∈ ms, m.1.Encodable ∧ (m.2.textAt (level + 1)).Encodable := by
  cases ms with
  | nil => simp [textAt]
  | cons m ms =>
    simp [textAt, encodable_indent, encodable_stringText, encodable_membersAt, and_assoc]

theorem Whole.showable_iff {j : Json} (h : j.Whole) (level : Nat) :
    j.Showable ↔ j.hasOverlong = false ∧ (j.textAt level).Encodable := by
  induction h generalizing level with
  | null => exact iff_of_true .null ⟨rfl, encodable_lit _⟩
  | bool b => exact iff_of_true (.bool b) ⟨rfl, by cases b <;> exact encodable_lit _⟩
  | int i => rw [showable_int_iff, hasOverlong, textAt, and_iff_left (Decimal.encodable_ofInt i)]
  | str s =>
    have ho : (Json.str s).hasOverlong = false := rfl
    rw [showable_str_iff, textAt, encodable_stringText, and_iff_right ho]
  | arr _ ih =>
    rw [showable_arr_iff, hasOverlong, anyOverlong_eq_false_iff, encodable_textAt_arr,
      forall₂_congr fun j hj => ih j hj (level + 1)]
    simp only [forall_and]
  | obj _ ih =>
    rw [showable_obj_iff, hasOverlong, anyMemberOverlong_eq_false_iff, encodable_textAt_obj,
      forall₂_congr fun m hm => and_congr_right' (ih m hm (level + 1))]
    simp only [forall_and]
    tauto

theorem notMem_stringPoint (c : CodePoint) : carriageReturn ∉ stringPoint c := by
  have hhex : ∀ n : Fin 0x20, carriageReturn ∉ lit "\\u" ++ Text.hex 4 n := by decide
  unfold stringPoint
  split
  · next h => rcases h with rfl | rfl <;> decide
  · split <;> try decide
    split
    · next hn => exact hhex ⟨c.val, hn⟩
    · next hr _ =>
      rw [List.mem_singleton]
      rintro rfl
      exact hr rfl

theorem notMem_stringText (s : Text) : carriageReturn ∉ stringText s := by
  have hq : carriageReturn ≠ CodePoint.quotation := by decide
  have hs : carriageReturn ∉ s.flatMap stringPoint := by
    rw [List.mem_flatMap]
    rintro ⟨c, -, hm⟩
    exact notMem_stringPoint c hm
  simp [stringText, hq, hs]

theorem notMem_indent (level : Nat) : carriageReturn ∉ indent level := by
  have hn : carriageReturn ≠ CodePoint.newline := by decide
  have hs : carriageReturn ≠ CodePoint.space := by decide
  simp [indent, Text.spaces, hn, hs]

theorem notMem_itemsAt (h : ∀ j ∈ js, carriageReturn ∉ j.textAt level) :
    carriageReturn ∉ itemsAt level js := by
  induction js with
  | nil => exact List.not_mem_nil
  | cons j js ih =>
    rw [List.forall_mem_cons] at h
    simp +decide [itemsAt, notMem_indent, h.1, ih h.2]

theorem notMem_membersAt (h : ∀ m ∈ ms, carriageReturn ∉ m.2.textAt level) :
    carriageReturn ∉ membersAt level ms := by
  induction ms with
  | nil => exact List.not_mem_nil
  | cons m ms ih =>
    rw [List.forall_mem_cons] at h
    simp +decide [membersAt, notMem_indent, notMem_stringText, h.1, ih h.2]

theorem Whole.notMem_textAt {j : Json} (h : j.Whole) (level : Nat) :
    carriageReturn ∉ j.textAt level := by
  induction h generalizing level with
  | null => simp +decide [textAt]
  | bool b => cases b <;> simp +decide [textAt]
  | int i =>
    rw [textAt, Decimal.ofInt_eq, List.mem_append, not_or]
    exact ⟨Decimal.notMem_sign _, (Decimal.digits_ofNat _).notMem⟩
  | str s => exact notMem_stringText s
  | @arr js _ ih =>
    cases js with
    | nil => simp +decide [textAt]
    | cons j js =>
      rw [List.forall_mem_cons] at ih
      simp +decide [textAt, notMem_indent, ih.1, notMem_itemsAt fun j hj => ih.2 j hj (level + 1)]
  | @obj ms _ ih =>
    cases ms with
    | nil => simp +decide [textAt]
    | cons m ms =>
      rw [List.forall_mem_cons] at ih
      simp +decide [textAt, notMem_indent, notMem_stringText, ih.1,
        notMem_membersAt fun m hm => ih.2 m hm (level + 1)]

/-! ## Names in objects -/

/-- No object in the document has two members of one name. -/
inductive Distinct : Json → Prop where
  | null : Distinct .null
  | bool (b : Bool) : Distinct (.bool b)
  | int (i : Int) : Distinct (.int i)
  | number (t : Text) : Distinct (.number t)
  | str (s : Text) : Distinct (.str s)
  | arr {js : List Json} : (∀ j ∈ js, Distinct j) → Distinct (.arr js)
  | obj {ms : List (Text × Json)} : (ms.map (·.1)).Nodup → (∀ m ∈ ms, Distinct m.2) →
    Distinct (.obj ms)

end Json

structure Diagnostic.Showable (d : Diagnostic) : Prop where
  line : Decimal.isOverlong d.pos.lineNumber = false
  words : d.words.Encodable

namespace Transformation

open Json (showable_obj_iff showable_arr_iff showable_str_iff showable_int_iff)

/-! ## The report -/

theorem whole_document (t : Transformation) : t.document.Whole := by
  have hentry (e : Entry) : (entryJson e).Whole := by
    refine .obj ?_
    simp only [List.forall_mem_cons]
    exact ⟨.str _, .int _, List.forall_mem_nil _⟩
  have hwarning (d : Diagnostic) : (warningItem d).Whole := by
    refine .obj ?_
    simp only [List.forall_mem_cons]
    exact ⟨.int _, .str _, List.forall_mem_nil _⟩
  refine .obj ?_
  simp only [List.forall_mem_cons]
  refine ⟨.str _, .str _, .obj ?_, .arr ?_, .arr ?_, .obj ?_, List.forall_mem_nil _⟩
  · exact List.forall_mem_map.2 fun x _ => .arr (List.forall_mem_map.2 fun e _ => hentry e)
  · exact List.forall_mem_map.2 fun f _ => .str _
  · exact List.forall_mem_map.2 fun d _ => hwarning d
  · simp only [List.forall_mem_cons]
    exact ⟨.int _, .int _, .int _, .int _, List.forall_mem_nil _⟩

theorem distinct_document (t : Transformation) : t.document.Distinct := by
  have hentry (e : Entry) : (entryJson e).Distinct := by
    refine .obj (by simp only [List.map_cons, List.map_nil]; decide) ?_
    simp only [List.forall_mem_cons]
    exact ⟨.str _, .int _, List.forall_mem_nil _⟩
  have hwarning (d : Diagnostic) : (warningItem d).Distinct := by
    refine .obj (by simp only [List.map_cons, List.map_nil]; decide) ?_
    simp only [List.forall_mem_cons]
    exact ⟨.int _, .str _, List.forall_mem_nil _⟩
  refine .obj (by simp only [List.map_cons, List.map_nil]; decide) ?_
  simp only [List.forall_mem_cons]
  refine ⟨.str _, .str _, .obj ?_ ?_, .arr ?_, .arr ?_, .obj ?_ ?_, List.forall_mem_nil _⟩
  · rw [List.map_map]
    exact t.table.nodup
  · exact List.forall_mem_map.2 fun x _ => .arr (List.forall_mem_map.2 fun e _ => hentry e)
  · exact List.forall_mem_map.2 fun f _ => .str _
  · exact List.forall_mem_map.2 fun d _ => hwarning d
  · simp only [List.map_cons, List.map_nil]
    decide
  · simp only [List.forall_mem_cons]
    exact ⟨.int _, .int _, .int _, .int _, List.forall_mem_nil _⟩

/-- Nothing in the report has a surrogate or too many digits. -/
structure Exportable (t : Transformation) : Prop where
  file : t.file.Encodable
  table : t.table.Showable
  warnings : ∀ w ∈ t.warnings.all, w.Showable
  /-- The counts have few digits, for no machine holds so many enums. -/
  counts : ∀ n ∈ [t.stats.declarations, t.stats.enums, t.stats.entries, t.stats.functions],
    Decimal.isOverlong n = false

theorem showable_document_iff {t : Transformation}
    (hnames : t.table.Showable → ∀ f ∈ t.generated, f.name.Encodable) :
    t.document.Showable ↔ t.Exportable := by
  have hentry (e : Entry) : (entryJson e).Showable ↔
      e.name.Encodable ∧ Decimal.isOverlong e.code = false := by
    simp [entryJson, showable_obj_iff, showable_str_iff, showable_int_iff]
  have hwarning (d : Diagnostic) : (warningItem d).Showable ↔ d.Showable := by
    simp only [warningItem, showable_obj_iff, showable_str_iff, showable_int_iff, List.forall_mem_cons,
      encodable_lit, true_and]
    exact ⟨fun h => ⟨h.1, h.2.1⟩, fun h => ⟨h.1, h.2, List.forall_mem_nil _⟩⟩
  have houtcome : t.outcome.name.Encodable := by cases t.outcome <;> exact encodable_lit _
  have hsignature (f : FunctionDef) : f.signature.Encodable ↔ f.name.Encodable := by
    simp [FunctionDef.signature]
  simp only [document, showable_obj_iff, List.forall_mem_cons, List.forall_mem_map, showable_str_iff,
    showable_arr_iff, showable_int_iff, encodable_lit, houtcome, hentry, hwarning, hsignature, true_and]
  constructor
  · rintro ⟨hfile, htable, -, hwarnings, ⟨hd, he, hn, hf, -⟩, -⟩
    refine ⟨hfile, htable, hwarnings, ?_⟩
    simp only [List.forall_mem_cons]
    exact ⟨hd, he, hn, hf, List.forall_mem_nil _⟩
  · rintro ⟨hfile, htable, hwarnings, hcounts⟩
    simp only [List.forall_mem_cons] at hcounts
    obtain ⟨hd, he, hn, hf, -⟩ := hcounts
    exact ⟨hfile, htable, hnames htable, hwarnings, ⟨hd, he, hn, hf, List.forall_mem_nil _⟩,
      List.forall_mem_nil _⟩

end Transformation

theorem Accessors.encodable_name {s : PositionStyle} {t : Table} {seed : Int} (ht : t.Showable) :
    ∀ f ∈ (synthesize s t seed).1, f.name.Encodable := by
  have hnames : ∀ n ∈ t.names, n.Encodable := List.forall_mem_map.2 fun x hx => (ht x hx).1
  have hpart (word : String) (n : Text) (hn : n ∈ t.names) : (n ++ lit word).Encodable :=
    Text.encodable_append.2 ⟨hnames n hn, encodable_lit _⟩
  have hkeys : ∀ k ∈ (synthesize s t seed).1.map FunctionDef.key, k.1.Encodable := by
    rw [keys_synthesize]
    simp only [List.forall_mem_append, List.forall_mem_cons, List.cons_append, List.forall_mem_map]
    exact ⟨encodable_lit _, ⟨hpart _, encodable_lit _, hpart _⟩, encodable_lit _, encodable_lit _,
      List.forall_mem_nil _⟩
  exact fun f hf => hkeys f.key (List.mem_map_of_mem hf)

theorem Transformation.showable_document_ofUnit_iff {fs : List Form} {u : UnitParts} :
    (ofUnit fs u).document.Showable ↔ (ofUnit fs u).Exportable := by
  refine showable_document_iff fun ht => ?_
  rw [table_ofUnit] at ht
  by_cases hs : u.table.size = 0
  · rw [ofUnit_of_size_eq_zero hs]
    exact List.forall_mem_nil _
  · rw [generated_ofUnit hs]
    exact Accessors.encodable_name ht

/-! ## Writing the report -/

namespace Command

def carryOut (c : Course) (f : Folder) : Observed := Effect.performAll ⟨[], [], f, c.2⟩ c.1

variable {path : Text} {t : Transformation} {c : Course} {n : Nat}

theorem ending_carryOut {f : Folder} (h : ∀ w, (carryOut c f).ending ≠ .breakdown (.write w)) :
    (carryOut c f).ending = c.2 :=
  (Effect.ending_performAll _ _).resolve_right fun ⟨w, hw⟩ => h w hw

theorem writing_exit_iff {s : Text} :
    (writing path s c).2 = .exit n ↔ s.Encodable ∧ c.2 = .exit n := by
  rw [← Utf8.exists_encode?_iff, writing]
  cases Utf8.encode? s with
  | some bytes => simp [after]
  | none => simp [after, breakOff]

theorem writing_eq {s : Text} (h : s.Encodable) (path : Text) (c : Course) :
    ∃ bytes, Utf8.encode? s = some bytes ∧ writing path s c = after [.write path bytes] c := by
  obtain ⟨bytes, hb⟩ := Utf8.exists_encode?_iff.2 h
  exact ⟨bytes, hb, by rw [writing, hb]⟩

theorem exporting_eq (hw : ∀ d ∈ t.warnings.all, d.IsWorded) :
    exporting path t c = after [.makeWay path]
      (if t.document.hasOverlong then breakOff .overlongOutput
        else writing path (t.document.textAt 0) c) := by
  simp only [exporting, Transformation.report_eq hw, Json.text?]
  cases t.document.hasOverlong <;> rfl

theorem exporting_exit_iff (hw : ∀ d ∈ t.warnings.all, d.IsWorded) :
    (exporting path t c).2 = .exit n ↔ t.document.Showable ∧ c.2 = .exit n := by
  rw [exporting_eq hw, t.whole_document.showable_iff 0]
  cases t.document.hasOverlong with
  | true => simp [after, breakOff]
  | false => simp [after, writing_exit_iff]

end Command

theorem File.parse?_document {t : Transformation} {bytes : List UInt8}
    (h : Utf8.encode? (t.document.textAt 0) = some bytes) :
    (File.text? bytes).bind Json.parse? = some t.document := by
  have hn : Text.unifyNewlines (t.document.textAt 0) = t.document.textAt 0 :=
    Text.unifyNewlines_eq_self_iff.2 (t.whole_document.notMem_textAt 0)
  rw [File.text?, Utf8.decode?_encode? h, Option.map_some, hn, Option.bind_some]
  exact Json.parse?_textAt t.whole_document

theorem Effect.content?_performAll {s : Observed} {path : Text} {bytes : List UInt8}
    (h : ∀ w, (performAll s [.makeWay path, .write path bytes]).ending ≠ .breakdown (.write w)) :
    (performAll s [.makeWay path, .write path bytes]).folder.content? (Path.steps path) =
      some bytes := by
  cases hm : s.folder.makeWay (Path.steps path) with
  | error w =>
    exfalso
    exact h w (by simp [performAll, perform, hm, Except.map])
  | ok f =>
    cases hf : f.write (Path.steps path) bytes with
    | error w =>
      exfalso
      exact h w (by simp [performAll, perform, hm, hf, Except.map])
    | ok f' => simpa [performAll, perform, hm, hf, Except.map] using Folder.content?_of_write hf

/-- The report on a text that is transformed is a document in which no object has a name twice. It is
written to a file, if nothing stands in the way of the file, exactly when no name in it has a surrogate
and no number too many digits, and then the document is what is read from the file. -/
theorem parse?_exporting (s : Text) (tr : Transformation) (h : transformText s = .ok tr) (path : Text)
    (f : Folder)
    (hw : ∀ w, (Command.carryOut (Command.exporting path tr (Command.finish 0)) f).ending ≠
      .breakdown (.write w)) :
    let seen := Command.carryOut (Command.exporting path tr (Command.finish 0)) f
    tr.report = .ok tr.document ∧ tr.document.Distinct ∧
    (seen.ending = .exit 0 ↔ tr.Exportable) ∧
    (tr.Exportable → ∃ bytes, seen.folder.content? (Path.steps path) = some bytes ∧
      (File.text? bytes).bind Json.parse? = some tr.document) := by
  obtain ⟨fs, u, -, -, rfl⟩ := transformText_eq_ok_iff.1 h
  have hworded : ∀ d ∈ (Transformation.ofUnit fs u).warnings.all, d.IsWorded :=
    Transformation.isWorded_of_mem_ofUnit
  refine ⟨Transformation.report_eq hworded, Transformation.distinct_document _, ?_, fun he => ?_⟩
  · have hfinish : (Command.finish 0).2 = .exit 0 := rfl
    rw [Command.ending_carryOut hw, Command.exporting_exit_iff hworded, and_iff_left hfinish,
      Transformation.showable_document_ofUnit_iff]
  · rw [← Transformation.showable_document_ofUnit_iff,
      (Transformation.whole_document _).showable_iff 0] at he
    obtain ⟨bytes, hb, hwrite⟩ := Command.writing_eq he.2 path (Command.finish 0)
    have hcourse : Command.exporting path (.ofUnit fs u) (Command.finish 0) =
        ([.makeWay path, .write path bytes], .exit 0) := by
      rw [Command.exporting_eq hworded, he.1, hwrite]
      rfl
    rw [hcourse] at hw ⊢
    exact ⟨bytes, Effect.content?_performAll hw, File.parse?_document hb⟩

def adorned : Text :=
  lit "\x7battribute,1,file,\x7b\"f\",1\x7d\x7d." ++ lit "\x7battribute,2,module,m\x7d." ++
    lit "\x7battribute,3,enum,\x7b'\"é\\n',[a,\x7b'\\x01',70\x7d]\x7d\x7d." ++
    lit "\x7battribute,4,enum,5\x7d." ++ lit "\x7beof,5\x7d."

theorem parse?_exporting_adorned : ∃ tr bytes, transformText adorned = .ok tr ∧ tr.Exportable ∧
    let seen := Command.carryOut (Command.exporting (lit "r") tr (Command.finish 0)) .empty
    seen.ending = .exit 0 ∧ seen.folder.content? (Path.steps (lit "r")) = some bytes ∧
      (File.text? bytes).bind Json.parse? = some tr.document := by
  have hs : ((transformText adorned).toOption.bind fun tr => (Command.carryOut
      (Command.exporting (lit "r") tr (Command.finish 0)) .empty).ending.code?) = some 0 := by
    decide +kernel
  obtain ⟨tr, ht, he⟩ := Option.bind_eq_some_iff.1 hs
  have hok := Attempt.toOption_eq_some.1 ht
  have hend := Ending.code?_eq_some.1 he
  have hw (w : WriteError) : (Command.carryOut (Command.exporting (lit "r") tr (Command.finish 0))
      .empty).ending ≠ .breakdown (.write w) := by
    rw [hend]
    exact Ending.noConfusion
  obtain ⟨-, -, hiff, hfile⟩ := parse?_exporting adorned tr hok (lit "r") .empty hw
  obtain ⟨bytes, hc, hp⟩ := hfile (hiff.1 hend)
  exact ⟨tr, bytes, hok, hiff.1 hend, hend, hc, hp⟩

def clouded : Text :=
  lit "\x7battribute,1,file,\x7b\"f\",1\x7d\x7d." ++ lit "\x7battribute,2,module,m\x7d." ++
    lit "\x7battribute,3,enum,\x7b'\\x\x7bD800\x7d',[a]\x7d\x7d." ++ lit "\x7beof,4\x7d."

/-- The unit is taken and has no long integer, but its report is not written. -/
theorem not_exporting_clouded : ∃ fs tr, readForms clouded = .ok fs ∧
    (∀ g ∈ fs, g.toTerm.hasOverlong = false) ∧ transformText clouded = .ok tr ∧
    ∀ path f, (Command.carryOut (Command.exporting path tr (Command.finish 0)) f).ending ≠
      .exit 0 := by
  have hforms : ((readForms clouded).toOption.map fun fs =>
      fs.all fun g => !g.toTerm.hasOverlong) = some true := by decide +kernel
  have htable : ((transformText clouded).toOption.map fun tr =>
      tr.table.enums.any fun x => x.1.any (·.isSurrogate)) = some true := by decide +kernel
  obtain ⟨fs, hf, hall⟩ := Option.map_eq_some_iff.1 hforms
  obtain ⟨tr, ht, hany⟩ := Option.map_eq_some_iff.1 htable
  have hok := Attempt.toOption_eq_some.1 ht
  refine ⟨fs, tr, Attempt.toOption_eq_some.1 hf, by simpa using hall, hok, fun path f he => ?_⟩
  obtain ⟨forms, u, -, -, rfl⟩ := transformText_eq_ok_iff.1 hok
  have hexit := Effect.ending_of_performAll he
  rw [Command.exporting_exit_iff Transformation.isWorded_of_mem_ofUnit,
    Transformation.showable_document_ofUnit_iff] at hexit
  obtain ⟨x, hx, hname⟩ := List.any_eq_true.1 hany
  obtain ⟨c, hc, hs⟩ := List.any_eq_true.1 hname
  rw [(hexit.1.table x hx).1 c hc] at hs
  cases hs

end EnumForms
