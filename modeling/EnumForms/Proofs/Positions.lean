import EnumForms.Proofs.Lookup

/-!
Where the functions made for a table stand, with everything in them. A clause of a dispatcher has a
line of its own, as has every function of an enum, and what a clause holds stands where the clause
does.
-/
namespace EnumForms

namespace Expr

mutual

def positions : Expr → List Position
  | .atom p _ | .integer p _ | .var p _ | .nil p => [p]
  | .cons p head tail => p :: head.positions ++ tail.positions
  | .call p function args => p :: function.positions ++ positionsOf args

def positionsOf : List Expr → List Position
  | [] => []
  | e :: es => e.positions ++ positionsOf es

end

end Expr

def Clause.positions (c : Clause) : List Position :=
  c.pos :: Expr.positionsOf c.patterns ++ c.guards.flatMap Expr.positionsOf ++
    Expr.positionsOf c.body

namespace FunctionDef

def positions (f : FunctionDef) : List Position := f.pos :: f.clauses.flatMap Clause.positions

/-- A function of a name and an arity at a line. Its clauses start at `lines`, in this order, and
the one for everything else comes after them at the line `last`. All that a clause holds has the
position of the clause. -/
structure Stands (f : FunctionDef) (s : PositionStyle) (name : Text) (arity : Nat) (line : Int)
    (lines : List Int) (last : Int) : Prop where
  key : f.key = (name, (arity : Int))
  pos : f.pos = s.encode line
  clauses : ∃ cs, f.clauses = cs ++ [Accessors.lastClause (s.encode last) arity] ∧
    cs.map (·.pos) = lines.map s.encode
  inside : ∀ c ∈ f.clauses, ∀ q ∈ c.positions, q = c.pos

theorem Stands.mem_positions {f : FunctionDef} {s : PositionStyle} {name : Text} {arity : Nat}
    {line last : Int} {lines : List Int} (h : f.Stands s name arity line lines last) {q : Position}
    (hq : q ∈ f.positions) : ∃ l, (l = line ∨ l ∈ lines ∨ l = last) ∧ q = s.encode l := by
  rcases List.mem_cons.1 hq with rfl | hq
  · exact ⟨line, .inl rfl, h.pos⟩
  · obtain ⟨c, hc, hq⟩ := List.mem_flatMap.1 hq
    obtain ⟨cs, hcs, hlines⟩ := h.clauses
    rw [h.inside c hc q hq]
    rw [hcs] at hc
    rcases List.mem_append.1 hc with hc | hc
    · have hpos : c.pos ∈ lines.map s.encode := hlines ▸ List.mem_map_of_mem hc
      obtain ⟨l, hl, he⟩ := List.mem_map.1 hpos
      exact ⟨l, .inr (.inl hl), he.symm⟩
    · obtain rfl := List.mem_singleton.1 hc
      exact ⟨last, .inr (.inr rfl), rfl⟩

theorem Stands.eq_of_mem_positions {f : FunctionDef} {s : PositionStyle} {name : Text}
    {arity n : Nat} {line : Int} (h : f.Stands s name arity line (List.replicate n line) line)
    {q : Position} (hq : q ∈ f.positions) : q = s.encode line := by
  obtain ⟨l, hl, rfl⟩ := h.mem_positions hq
  rcases hl with rfl | hl | rfl
  · rfl
  · rw [List.eq_of_mem_replicate hl]
  · rfl

end FunctionDef

namespace Accessors

/-- A function for each enum, with a clause for each of its entries and the one for everything else.
The first stands at `line` with all its clauses, and each one more stands a line further on. -/
structure StandEach (fs : List FunctionDef) (s : PositionStyle) (t : Table) (name : Text → Text)
    (line : Int) : Prop where
  length : fs.length = t.size
  stands : ∀ (i : Nat) (enum : Text) (es : List Entry), t.enums[i]? = some (enum, es) →
    ∃ f, fs[i]? = some f ∧
      f.Stands s (name enum) 1 (line + i) (List.replicate es.length (line + i)) (line + i)

theorem StandEach.stands_of_mem {fs : List FunctionDef} {s : PositionStyle} {t : Table}
    {name : Text → Text} {line : Int} (h : StandEach fs s t name line) {f : FunctionDef}
    (hf : f ∈ fs) : ∃ (i : Nat) (enum : Text) (es : List Entry), i < t.size ∧
      f.Stands s (name enum) 1 (line + i) (List.replicate es.length (line + i)) (line + i) := by
  obtain ⟨i, hi, rfl⟩ := List.mem_iff_getElem.1 hf
  have hsize : i < t.size := Nat.lt_of_lt_of_eq hi h.length
  obtain ⟨f, hf, hs⟩ := h.stands i _ _ (List.getElem?_eq_getElem hsize)
  rw [List.getElem?_eq_getElem hi, Option.some.injEq] at hf
  subst hf
  exact ⟨i, _, _, hsize, hs⟩

variable {s : PositionStyle} {t : Table} {p : Position} {line last : Int}

theorem getElem?_numbered (line : Int) (t : Table) (i : Nat) :
    (numbered line t)[i]? = t.enums[i]?.map fun e => (line + i, e) := by
  simp [numbered, Function.comp_def]

theorem lines_numbered (line : Int) (t : Table) :
    (numbered line t).map (·.1) = (List.range t.size).map fun i : Nat => line + i := by
  have hplaces : t.enums.zipIdx.map Prod.snd = List.range t.size := by
    rw [List.zipIdx_map_snd, List.range_eq_range']
    rfl
  rw [← hplaces, numbered, List.map_map, List.map_map]
  rfl

theorem positions_clause {patterns : List Expr} {body : Expr}
    (hp : ∀ q ∈ Expr.positionsOf patterns, q = p) (hb : ∀ q ∈ body.positions, q = p) :
    ∀ q ∈ (clause p patterns body).positions, q = p := by
  intro q hq
  simp only [clause, Clause.positions, Expr.positionsOf, List.flatMap_nil, List.append_nil,
    List.mem_append, List.mem_cons] at hq
  rcases hq with (rfl | hq) | hq
  · rfl
  · exact hp q hq
  · exact hb q hq

theorem positions_lastClause (arity : Nat) : ∀ q ∈ (lastClause p arity).positions, q = p := by
  refine positions_clause ?_ (by simp [Expr.positions, Expr.positionsOf])
  induction arity with
  | zero => simp [Expr.positionsOf]
  | succ n ih => simpa [List.replicate_succ, Expr.positionsOf, Expr.positions] using ih

theorem positions_nameToCode (e : Entry) : ∀ q ∈ (nameToCode p e).positions, q = p :=
  positions_clause (by simp [Expr.positionsOf, Expr.positions]) (by simp [Expr.positions])

theorem positions_codeToName (e : Entry) : ∀ q ∈ (codeToName p e).positions, q = p :=
  positions_clause (by simp [Expr.positionsOf, Expr.positions]) (by simp [Expr.positions])

theorem positions_listOf {es : List Expr} (he : ∀ e ∈ es, ∀ q ∈ e.positions, q = p) :
    ∀ q ∈ (listOf p es).positions, q = p := by
  induction es with
  | nil => simp [listOf, Expr.positions]
  | cons e es ih =>
    rw [List.forall_mem_cons] at he
    intro q hq
    simp only [listOf, List.foldr_cons, Expr.positions, List.mem_cons, List.mem_append] at hq
    rcases hq with (rfl | hq) | hq
    · rfl
    · exact he.1 q hq
    · exact ih he.2 q hq

theorem stands_functionOf (name : Text) (arity : Nat) (cs : List Clause) {lines : List Int}
    (hlines : cs.map (·.pos) = lines.map s.encode)
    (hin : ∀ c ∈ cs, ∀ q ∈ c.positions, q = c.pos) :
    (functionOf (s.encode line) (s.encode last) name arity cs).Stands s name arity line lines
      last := by
  refine ⟨rfl, rfl, ⟨cs, rfl, hlines⟩, fun c hc => ?_⟩
  rcases List.mem_append.1 hc with hc | hc
  · exact hin c hc
  · obtain rfl := List.mem_singleton.1 hc
    exact positions_lastClause arity

theorem stands_dispatcher (name : Text) (target : Text → Text) :
    (dispatcher s t line name target).1.Stands s name 2 line
      ((List.range t.size).map fun i : Nat => line + i) (line + t.size + 1) := by
  refine stands_functionOf name 2 _ ?_ fun c hc => ?_
  · rw [← lines_numbered, List.map_map, List.map_map]
    rfl
  · obtain ⟨x, -, rfl⟩ := List.mem_map.1 hc
    exact positions_clause (by simp [Expr.positionsOf, Expr.positions])
      (by simp [Expr.positionsOf, Expr.positions])

theorem standEach_dedicated (name : Text → Text) {entryClause : Position → Entry → Clause}
    (hpos : ∀ p e, (entryClause p e).pos = p)
    (hin : ∀ p e, ∀ q ∈ (entryClause p e).positions, q = p) :
    StandEach (dedicated s t line name entryClause).1 s t name line := by
  refine ⟨by simp [dedicated, numbered, Table.size], fun i enum es he => ?_⟩
  refine ⟨_, ?_, stands_functionOf (name enum) 1 (es.map (entryClause (s.encode (line + i)))) ?_
    fun c hc => ?_⟩
  · simp only [dedicated, List.getElem?_map, getElem?_numbered, he, Option.map_some]
  · simp [hpos, Function.comp_def]
  · obtain ⟨e, -, rfl⟩ := List.mem_map.1 hc
    rw [hpos]
    exact hin _ e

theorem standEach_toIntOf (s : PositionStyle) (t : Table) (line : Int) :
    StandEach (dedicated s t line toIntOf nameToCode).1 s t toIntOf line :=
  standEach_dedicated toIntOf (fun _ _ => rfl) fun _ => positions_nameToCode

theorem standEach_toAtomOf (s : PositionStyle) (t : Table) (line : Int) :
    StandEach (dedicated s t line toAtomOf codeToName).1 s t toAtomOf line :=
  standEach_dedicated toAtomOf (fun _ _ => rfl) fun _ => positions_codeToName

theorem stands_listing (name : Text) {item : Position → Entry → Expr}
    (hi : ∀ p e, ∀ q ∈ (item p e).positions, q = p) :
    (listing s t line name item).1.Stands s name 1 line (List.replicate t.size line) line := by
  refine stands_functionOf name 1 _ ?_ fun c hc => ?_
  · simp [clause, Table.size, Function.comp_def]
  · obtain ⟨x, -, rfl⟩ := List.mem_map.1 hc
    refine positions_clause (by simp [Expr.positionsOf, Expr.positions]) ?_
    refine positions_listOf fun e he => ?_
    obtain ⟨entry, -, rfl⟩ := List.mem_map.1 he
    exact hi _ entry

/-- Every family starts on the line after the one before it. -/
theorem synthesize_eq (s : PositionStyle) (t : Table) (line : Int) :
    synthesize s t line =
      ((dispatcher s t line toInt toIntOf).1 ::
          (dedicated s t (line + t.size + 1) toIntOf nameToCode).1 ++
        (dispatcher s t (line + 2 * t.size + 2) toAtom toAtomOf).1 ::
          (dedicated s t (line + 3 * t.size + 3) toAtomOf codeToName).1 ++
        [(listing s t (line + 4 * t.size + 4) keys fun p e => .atom p e.name).1,
          (listing s t (line + 4 * t.size + 5) values fun p e => .integer p e.code).1],
        line + 4 * t.size + 6) := by
  have hdispatcher (l : Int) (n : Text) (f : Text → Text) :
      (dispatcher s t l n f).2 = l + t.size + 1 := rfl
  have hdedicated (l : Int) (n : Text → Text) (c : Position → Entry → Clause) :
      (dedicated s t l n c).2 = l + t.size + 1 := rfl
  have hlisting (l : Int) (n : Text) (i : Position → Entry → Expr) :
      (listing s t l n i).2 = l + 1 := rfl
  have h₂ : line + t.size + 1 + t.size + 1 = line + 2 * t.size + 2 := by omega
  have h₃ : line + 2 * t.size + 2 + t.size + 1 = line + 3 * t.size + 3 := by omega
  have h₄ : line + 3 * t.size + 3 + t.size + 1 = line + 4 * t.size + 4 := by omega
  have h₅ : line + 4 * t.size + 4 + 1 = line + 4 * t.size + 5 := by omega
  have h₆ : line + 4 * t.size + 5 + 1 = line + 4 * t.size + 6 := by omega
  simp only [synthesize, hdispatcher, hdedicated, hlisting, h₂, h₃, h₄, h₅, h₆]

theorem exists_line_of_mem_dispatcher {name : Text} {target : Text → Text} {q : Position}
    (hq : q ∈ (dispatcher s t line name target).1.positions) :
    ∃ l, l ≤ line + t.size + 1 ∧ q = s.encode l := by
  obtain ⟨l, hl, rfl⟩ := (stands_dispatcher name target).mem_positions hq
  refine ⟨l, ?_, rfl⟩
  rcases hl with rfl | hl | rfl
  · omega
  · obtain ⟨i, hi, rfl⟩ := List.mem_map.1 hl
    have hlt := List.mem_range.1 hi
    omega
  · omega

theorem StandEach.exists_line {fs : List FunctionDef} {name : Text → Text}
    (h : StandEach fs s t name line) {f : FunctionDef} (hf : f ∈ fs) {q : Position}
    (hq : q ∈ f.positions) : ∃ l, l < line + t.size ∧ q = s.encode l := by
  obtain ⟨i, enum, es, hi, hs⟩ := h.stands_of_mem hf
  exact ⟨line + i, by omega, hs.eq_of_mem_positions hq⟩

theorem exists_line_of_mem_synthesize {f : FunctionDef} (hf : f ∈ (synthesize s t line).1)
    {q : Position} (hq : q ∈ f.positions) :
    ∃ l, l < line + 4 * t.size + 6 ∧ q = s.encode l := by
  rw [synthesize_eq] at hf
  simp only [List.mem_append, List.mem_cons, List.not_mem_nil, or_false] at hf
  rcases hf with ((rfl | hf) | rfl | hf) | rfl | rfl
  · obtain ⟨l, hl, he⟩ := exists_line_of_mem_dispatcher hq
    exact ⟨l, by omega, he⟩
  · obtain ⟨l, hl, he⟩ := (standEach_toIntOf s t _).exists_line hf hq
    exact ⟨l, by omega, he⟩
  · obtain ⟨l, hl, he⟩ := exists_line_of_mem_dispatcher hq
    exact ⟨l, by omega, he⟩
  · obtain ⟨l, hl, he⟩ := (standEach_toAtomOf s t _).exists_line hf hq
    exact ⟨l, by omega, he⟩
  · exact ⟨_, by omega, (stands_listing keys (by simp [Expr.positions])).eq_of_mem_positions hq⟩
  · exact ⟨_, by omega, (stands_listing values (by simp [Expr.positions])).eq_of_mem_positions hq⟩

end Accessors

end EnumForms
