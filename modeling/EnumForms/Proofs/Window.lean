import EnumForms.Proofs.Rows
import EnumForms.ReadError.Message
import Mathlib.Data.List.Intervals

/-!
The lines shown around a token that does not fit. The lines are cut out by their indices and the mark is
set by their numbers, both of them kept within the text; they agree at every line of the text.
-/
namespace EnumForms

namespace Text

theorem unbroken_line (s : Text) (n : Int) : Unbroken (s.line n) := by
  unfold line
  split
  · cases h : s.lines[(n - 1).toNat]? with
    | none => exact List.forall_mem_nil _
    | some l => exact unbroken_of_mem_lines s l (List.mem_of_getElem? h)
  · exact List.forall_mem_nil _

/-- The numbers of the lines next to line `l`, and its own, in a text of `n` lines. -/
def around (n l : Nat) : List Nat := List.Ico (max 1 (l - 1)) (min n (l + 1) + 1)

theorem zipIdx_map_Ico {α : Type} (f : Nat → α) (a b : Nat) : ((List.Ico a b).map f).zipIdx =
    (List.Ico a b).map fun j => (f j, j - a) :=
  List.ext_getElem (by simp) fun i hi hi' => by simp [List.Ico]

theorem window_eq {s : Text} {l : Nat} (h : 1 ≤ l) (hl : l ≤ s.lines.length) :
    s.window l = (around s.lines.length l).map fun i : Nat => s.line i := by
  -- the line is in the text, so that the end of the window does not count back from the end
  have hstop : ¬ min (s.lines.length : Int) (l + 1) < 0 := by omega
  rw [window, if_neg hstop, around]
  refine List.ext_getElem (by simp; omega) fun i hi hi' => ?_
  have hlt : (l - 2 : Int).toNat + i < s.lines.length := by
    simp at hi
    omega
  have hindex : (((max 1 (l - 1) + 1 * i : Nat) : Int) - 1).toNat = (l - 2 : Int).toNat + i := by omega
  simp only [List.getElem_drop, List.getElem_take, List.getElem_map, List.Ico, List.getElem_range']
  rw [line, if_pos (by omega), hindex, List.getElem?_eq_getElem hlt, Option.getD_some]

end Text

namespace Message

def contextRow (source : Text) (l i : Nat) : Text :=
  (if i = l then lit ">>>" else lit "   ") ++ lit " " ++ source.line i

theorem context_eq {source : Text} {l : Nat} (hn : 2 ≤ source.lines.length) (h : 1 ≤ l)
    (hl : l ≤ source.lines.length) :
    context source l = Text.ended ([] :: lit "Contexto:" ::
      (Text.around source.lines.length l).map (contextRow source l)) := by
  have hlen : ¬ (source.window l).length < 2 := by
    rw [Text.window_eq h hl]
    simp [Text.around]
    omega
  rw [context, if_neg hlen, Text.window_eq h hl]
  have hhead (t : Text) : lit "\nContexto:\n" ++ t =
      [] ++ CodePoint.newline :: (lit "Contexto:" ++ CodePoint.newline :: t) := rfl
  dsimp only
  rw [Text.around, Text.zipIdx_map_Ico, hhead, Text.ended_cons, Text.ended_cons, Text.ended,
    List.flatMap_map, List.flatMap_map]
  congr 4
  refine List.flatMap_congr fun i hi => ?_
  have hmark : (max 1 ((l : Int) - 1) + ((i - max 1 (l - 1) : Nat) : Int) = l) = (i = l) := by
    have := (List.Ico.mem.1 hi).1
    ext
    omega
  simp only [hmark, contextRow]
  rfl

def contextRows (source : Text) (l : Nat) : List Text :=
  (Text.around source.lines.length l).map (contextRow source l)

/-- Only the line itself is marked, whatever stands in the lines. -/
theorem prefix_contextRow_iff {source : Text} {l i : Nat} :
    (lit ">>>").isPrefixOf (contextRow source l i) ↔ i = l := by
  unfold contextRow
  split
  case isTrue h => exact iff_of_true rfl h
  case isFalse h => exact iff_of_false (by simp [lit, List.isPrefixOf]; decide) h

theorem filter_contextRow {source : Text} {l : Nat} (h : 1 ≤ l) (hl : l ≤ source.lines.length) :
    (Text.around source.lines.length l).filter (fun i =>
      (lit ">>>").isPrefixOf (contextRow source l i)) = [l] := by
  have hmark (i : Nat) : (lit ">>>").isPrefixOf (contextRow source l i) = (i == l) := by
    rw [Bool.eq_iff_iff, prefix_contextRow_iff, beq_iff_eq]
  have hmem : l ∈ Text.around source.lines.length l := List.Ico.mem.2 (by omega)
  have hnodup : (Text.around source.lines.length l).Nodup := List.Ico.nodup _ _
  simp only [hmark]
  rw [List.filter_beq, hnodup.count, if_pos hmem, List.replicate_one]

theorem unbroken_contextRow (source : Text) (l i : Nat) : (contextRow source l i).Unbroken := by
  have hmark : Text.Unbroken ((if i = l then lit ">>>" else lit "   ") ++ lit " ") := by
    split <;> decide
  exact List.forall_mem_append.2 ⟨hmark, Text.unbroken_line source i⟩

theorem trimRight_expectation_ne_nil {expected : List Text} (he : expected ≠ []) :
    (expectation expected).trimRight ≠ [] := by
  have hmem : CodePoint.ofChar 'E' ∈ expectation expected := by
    rw [expectation, if_neg he, List.append_assoc]
    exact List.mem_append_left _ (by decide)
  exact Text.trimRight_ne_nil hmem (by decide)

/-- Around a line of a text of several lines, the context of a token is the line before it, the line
itself and the line after it, as far as there are such lines. They are lines of the message too, and only
the line itself is marked. -/
theorem token_context (source file kind text : Text) (l : Nat) (column : Int) (expected : List Text)
    (hn : 2 ≤ source.lines.length) (h : 1 ≤ l) (hl : l ≤ source.lines.length) (he : expected ≠ [])
    (hd : isMissingDot kind expected = false) :
    token source file kind text l column expected =
      headline file l column
          (lit "Token inesperado " ++ (if text = [] then lit "<EOF>" else text.inspect) ++ lit "\n") ++
        Text.ended ([] :: lit "Contexto:" :: contextRows source l) ++
        (expectation expected).trimRight ∧
    (Text.ended ([] :: lit "Contexto:" :: contextRows source l)).lines =
      [] :: lit "Contexto:" :: contextRows source l ∧
    contextRows source l =
      (List.Ico (max 1 (l - 1)) (min source.lines.length (l + 1) + 1)).map (contextRow source l) ∧
    (List.Ico (max 1 (l - 1)) (min source.lines.length (l + 1) + 1)).filter (fun i =>
      (lit ">>>").isPrefixOf (contextRow source l i)) = [l] := by
  refine ⟨?_, Text.lines_ended ?_, rfl, filter_contextRow h hl⟩
  · rw [token, if_neg (by simp [hd]), context_eq hn h hl,
      Text.trimRight_append _ (trimRight_expectation_ne_nil he), contextRows]
  · refine List.forall_mem_cons.2 ⟨List.forall_mem_nil _, List.forall_mem_cons.2 ⟨by decide, ?_⟩⟩
    exact List.forall_mem_map.2 fun i _ => unbroken_contextRow source l i

def mismatched : Text := lit "\x7ba,\r\n]\x7d.\x0cb."

theorem token_context_mismatched : mismatched.lines = [lit "\x7ba,", lit "]\x7d.", lit "b."] ∧
    isMissingDot Kind.closeList.name [Kind.string.name] = false ∧
    token mismatched (lit "f") Kind.closeList.name (lit "]") 2 1 [Kind.string.name] =
      headline (lit "f") 2 1 (lit "Token inesperado ']'\n") ++
        lit "\nContexto:\n    \x7ba,\n>>> ]\x7d.\n    b.\n" ++
        lit "\nEsperado: texto entre aspas" := by
  have hlines : mismatched.lines = [lit "\x7ba,", lit "]\x7d.", lit "b."] := by decide +kernel
  have hn : mismatched.lines.length = 3 := by rw [hlines]; rfl
  have hd : isMissingDot Kind.closeList.name [Kind.string.name] = false := by decide
  have hcontext := (token_context mismatched (lit "f") Kind.closeList.name (lit "]") 2 1
    [Kind.string.name] (by omega) (by decide) (by omega) (by simp) hd).1
  exact ⟨hlines, hd, hcontext.trans (by decide +kernel)⟩

end Message

end EnumForms
