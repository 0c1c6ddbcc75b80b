import Cddl.Proofs.Acceptance
import Cddl.Proofs.Seam

/-!
The analysis of two texts put together, where one can be put behind the other. Chunks, syntax errors
and rules are those of the first text and those of the second, moved behind it; only the names are
shared, so that each text may define what the other one uses.
-/
namespace Cddl

/-! ### Moving what was found in a text -/

def Name.shift (n : Name) (k : Nat) : Name := ⟨n.ident, n.span.shift k⟩

def Rule.shift (k : Nat) : Rule → Rule
  | .type name span params =>
    .type (name.shift k) (span.shift k) (params.map fun l => l.map (·.shift k))
  | .group name span => .group (name.shift k) (span.shift k)

def Definition.shift (d : Definition) (k : Nat) : Definition :=
  ⟨d.rule.shift k, d.params.map (·.shift k), d.references.map (·.shift k)⟩

def Problem.shift (p : Problem) (k : Nat) : Problem := ⟨p.cause, p.span.shift k⟩

variable {k offset : Nat} {chunk : List Char}

theorem Span.shift_shift (s : Span) : (s.shift offset).shift k = s.shift (offset + k : Nat) := by
  simp only [Span.shift, Span.mk.injEq, Int.natCast_add]
  omega

@[simp] theorem Rule.name_shift (r : Rule) : (r.shift k).name = r.name.shift k := by
  cases r <;> rfl

theorem Definition.nameOf_add (t : Token) :
    nameOf chunk (offset + k) t = (nameOf chunk offset t).shift k := by
  simp only [nameOf, Name.shift, Span.shift_shift]

theorem Definition.build_add (name assign : Token) (params : Option Tree) (content : Tree) :
    build chunk (offset + k) name assign params content =
      (build chunk offset name assign params content).shift k := by
  have hplace : nameOf chunk (offset + k) = fun t => (nameOf chunk offset t).shift k :=
    funext nameOf_add
  simp only [build, Definition.shift, hplace, ← Span.shift_shift, Definition.mk.injEq]
  refine ⟨?_, ?_, ?_⟩
  · split
    · rfl
    · cases params <;> simp [Rule.shift]
  · cases params <;> simp
  · simp

theorem Definition.ofTree?_add (t : Tree) :
    ofTree? chunk (offset + k) t = (ofTree? chunk offset t).map (·.shift k) := by
  unfold ofTree?
  split
  · rw [build_add, Option.map_some]
  · rw [build_add, Option.map_some]
  · rfl

theorem Rejection.problem_add (r : Rejection) :
    r.problem chunk (offset + k) = (r.problem chunk offset).shift k := by
  cases r with
  | unexpected place c expected =>
    simp only [problem, Problem.unexpected, Problem.shift, Span.shift, Problem.mk.injEq,
      Span.mk.injEq, true_and, Int.natCast_add]
    omega
  | incomplete expected =>
    simp only [problem, Problem.incomplete, Problem.shift, Span.shift, Problem.mk.injEq,
      Span.mk.injEq, true_and, Int.natCast_add]
    omega

theorem Problem.malformed_add (place : Option Int) :
    malformed (offset + k : Nat) chunk place = (malformed offset chunk place).shift k := by
  simp only [malformed, shift, Span.shift, Problem.mk.injEq, Span.mk.injEq, true_and,
    Int.natCast_add]
  omega

namespace Document

open Chunk (Seam)

/-- A reading moved behind other text. -/
def shiftReading (k : Nat) : Except Problem Definition → Except Problem Definition
  | .error p => .error (p.shift k)
  | .ok d => .ok (d.shift k)

/-- The rules that are built for a text. -/
def rules (text : List Char) : List Rule := (definitions (readings text)).map (·.rule)

/-- The reference that a problem reports as undefined. -/
def undefined? (p : Problem) : Option Name :=
  match p.cause with
  | .undefinedName ident => some ⟨ident, p.span⟩
  | _ => none

/-- The references that the analysis of a text reports as undefined. -/
def undefinedNames (text : List Char) : List Name :=
  match parse text with
  | .ok _ => []
  | .error problems => problems.filterMap undefined?

/-- The names that a text defines. -/
def defined (text : List Char) : List String := (rules text).map (·.name.ident)

variable {a b text : List Char}

theorem readChunk_append {c : Chunk} (hc : c.stop ≤ a.length) :
    readChunk (a ++ b) c = readChunk a c := by
  have hslice : c.slice (a ++ b) = c.slice a := by
    rw [Chunk.slice, List.take_append_of_le_length hc, Chunk.slice]
  rw [readChunk, hslice, readChunk]

theorem readChunk_shift (c : Chunk) :
    readChunk (a ++ b) (c.shift a.length) = shiftReading a.length (readChunk b c) := by
  have hslice : (c.shift a.length).slice (a ++ b) = c.slice b := by
    simp only [Chunk.slice, Chunk.shift]
    rw [Nat.add_comm c.stop, Nat.add_comm c.start, List.take_length_add_append,
      List.drop_length_add_append]
  have hstart : (c.shift a.length).start = c.start + a.length := rfl
  rw [readChunk, hslice, hstart, readChunk]
  cases Tree.ofText (c.slice b) with
  | error r =>
    simp only [shiftReading]
    rw [Rejection.problem_add]
  | ok tree =>
    simp only
    rw [Definition.ofTree?_add, Problem.malformed_add]
    cases Definition.ofTree? (c.slice b) c.start tree with
    | none => rfl
    | some d => rfl

theorem readings_append (h : Seam a b) :
    readings (a ++ b) = readings a ++ (readings b).map (shiftReading a.length) := by
  rw [readings, Chunk.split_append h, List.map_append, List.map_map, readings, readings,
    List.map_map]
  congr 1
  · apply List.map_congr_left
    intro c hc
    exact readChunk_append (Chunk.bounds_of_mem_split hc).2
  · apply List.map_congr_left
    intro c _
    exact readChunk_shift c

theorem broken_shift (rs : List (Except Problem Definition)) :
    broken (rs.map (shiftReading k)) = (broken rs).map (·.shift k) := by
  induction rs with
  | nil => rfl
  | cons r rs ih =>
    cases r with
    | error p => exact congrArg (p.shift k :: ·) ih
    | ok d => exact ih

theorem definitions_shift (rs : List (Except Problem Definition)) :
    definitions (rs.map (shiftReading k)) = (definitions rs).map (·.shift k) := by
  induction rs with
  | nil => rfl
  | cons r rs ih =>
    cases r with
    | error p => exact ih
    | ok d => exact congrArg (d.shift k :: ·) ih

theorem definitions_append (h : Seam a b) :
    definitions (readings (a ++ b)) =
      definitions (readings a) ++ (definitions (readings b)).map (·.shift a.length) := by
  rw [readings_append h, ← definitions_shift]
  exact List.filterMap_append

theorem syntaxErrors_append (h : Seam a b) :
    syntaxErrors (a ++ b) = syntaxErrors a ++ (syntaxErrors b).map (·.shift a.length) := by
  rw [syntaxErrors_eq_broken, syntaxErrors_eq_broken, syntaxErrors_eq_broken, readings_append h,
    ← broken_shift]
  exact List.filterMap_append

theorem rules_append (h : Seam a b) :
    rules (a ++ b) = rules a ++ (rules b).map (·.shift a.length) := by
  rw [rules, definitions_append h, List.map_append, rules, rules, List.map_map, List.map_map]
  rfl

/-! ### Names -/

/-- The names that a definition uses and that none of the given names defines. -/
def openNames (defined : List String) (d : Definition) : List Name :=
  d.references.filter fun r =>
    !(defined.contains r.ident || d.params.any (·.ident == r.ident) ||
      Reference.isPreludeName r.ident || isSocket r.ident)

theorem unresolved_eq (ds : List Definition) :
    unresolved ds = ds.flatMap (openNames (ds.map (·.rule.name.ident))) := rfl

theorem openNames_append (l m : List String) (d : Definition) :
    openNames (l ++ m) d = (openNames l d).filter (fun r => r.ident ∉ m) := by
  rw [openNames, openNames, List.filter_filter]
  congr 1
  funext r
  by_cases hm : r.ident ∈ m <;> simp [hm]

theorem openNames_comm (l m : List String) (d : Definition) :
    openNames (l ++ m) d = openNames (m ++ l) d := by
  rw [openNames, openNames]
  congr 1
  funext r
  rw [List.contains_append, List.contains_append, Bool.or_comm (l.contains r.ident)]

theorem openNames_shift (l : List String) (d : Definition) :
    openNames l (d.shift k) = (openNames l d).map (·.shift k) := by
  rw [openNames, Definition.shift, List.filter_map, openNames]
  congr 2
  funext r
  simp only [Function.comp_apply, Name.shift, List.any_map]
  rfl

/-- A name that only one part uses stays open where the other part does not define it. -/
theorem unresolved_append (ds es : List Definition) :
    unresolved (ds ++ es.map (·.shift k)) =
      (unresolved ds).filter (fun r => r.ident ∉ es.map (·.rule.name.ident)) ++
        ((unresolved es).filter fun r => r.ident ∉ ds.map (·.rule.name.ident)).map
          (·.shift k) := by
  -- a definition keeps its name where it is moved
  have hnames : (es.map (·.shift k)).map (·.rule.name.ident) = es.map (·.rule.name.ident) := by
    rw [List.map_map]
    apply List.map_congr_left
    intro d _
    show (d.rule.shift k).name.ident = d.rule.name.ident
    rw [Rule.name_shift]
    rfl
  rw [unresolved_eq, List.map_append, hnames, List.flatMap_append, unresolved_eq, unresolved_eq,
    List.filter_flatMap, List.filter_flatMap, List.map_flatMap, List.flatMap_map]
  congr 1
  · apply List.flatMap_congr
    intro d _
    exact openNames_append _ _ d
  · apply List.flatMap_congr
    intro d _
    rw [openNames_shift, openNames_comm, openNames_append]

/-- Where every chunk is a rule, the analysis answers with the rules or with the open names. -/
theorem parse_of_syntaxErrors (h : syntaxErrors text = []) :
    parse text =
      match unresolved (definitions (readings text)) with
      | [] => .ok (rules text)
      | found => .error (found.map fun r => ⟨.undefinedName r.ident, r.span⟩) := by
  rw [syntaxErrors_eq_broken] at h
  simp only [parse, resolve, problems, h]
  cases unresolved (definitions (readings text)) with
  | nil => rfl
  | cons r rest => rfl

theorem undefinedNames_eq (h : syntaxErrors text = []) :
    undefinedNames text = unresolved (definitions (readings text)) := by
  rw [undefinedNames, parse_of_syntaxErrors h]
  cases unresolved (definitions (readings text)) with
  | nil => rfl
  | cons r rest =>
    simp only [List.filterMap_map]
    exact List.filterMap_some

/-- Where nothing is wrong with a text, the answer is its rules. -/
theorem parse_eq_ok (h : syntaxErrors text = []) (hu : undefinedNames text = []) :
    parse text = .ok (rules text) := by
  rw [undefinedNames_eq h] at hu
  rw [parse_of_syntaxErrors h, hu]

/-- Two texts of one rule each, which use each other's name; an open bracket and an open quote stand
in a comment. -/
def upperText : List Char := ['x', '=', 'y', ';', '(', '"', '\n']

def lowerText : List Char := ['y', '=', 'x']

theorem derives_alias : Derives [.nonterminal .rule] [.name, .assign, .name] := by
  have hname : Derives [.nonterminal .type2] [.name] :=
    .of_production .type2Name (.of_production .typeNamePlain (.terminal .done))
  have hentry : Derives [.nonterminal .entry] [.name] :=
    .of_production .entryType (.of_production .typeOne (.of_production .type1Operand hname))
  exact .of_production .rulePlain (.terminal (.terminal hentry))

theorem isRule_upperText : IsRule upperText := by
  refine ⟨_, 3, ?_, .next (n := 3) rfl (.next (n := 1) rfl (.done _)), derives_alias⟩
  exact .token (.done _) rfl (.token (.done _) rfl (.token (.done _) rfl (.done _)))

theorem isRule_lowerText : IsRule lowerText := by
  refine ⟨_, 3, ?_, .done _, derives_alias⟩
  exact .token (.done _) rfl (.token (.done _) rfl (.token (.done _) rfl (.done _)))

/-- The analysis of two texts put together. The first text ends its last line with no bracket and no
literal left open, and the second begins with a head: then the chunks, the syntax errors and the
rules are those of the first and, moved behind it, those of the second. The names reported as
undefined are those that one text leaves open and the other does not define. -/
theorem parse_append (h : Seam a b) :
    Chunk.split (a ++ b) = Chunk.split a ++ (Chunk.split b).map (·.shift a.length) ∧
    syntaxErrors (a ++ b) = syntaxErrors a ++ (syntaxErrors b).map (·.shift a.length) ∧
    (syntaxErrors (a ++ b) = [] →
      rules (a ++ b) = rules a ++ (rules b).map (·.shift a.length) ∧
      undefinedNames (a ++ b) =
        (undefinedNames a).filter (fun r => r.ident ∉ defined b) ++
          ((undefinedNames b).filter fun r => r.ident ∉ defined a).map (·.shift a.length) ∧
      (undefinedNames (a ++ b) = [] → parse (a ++ b) = .ok (rules (a ++ b)))) := by
  refine ⟨Chunk.split_append h, syntaxErrors_append h, fun hsyn => ?_⟩
  refine ⟨rules_append h, ?_, parse_eq_ok hsyn⟩
  have hparts := hsyn
  rw [syntaxErrors_append h, List.append_eq_nil_iff, List.map_eq_nil_iff] at hparts
  rw [undefinedNames_eq hsyn, undefinedNames_eq hparts.1, undefinedNames_eq hparts.2,
    definitions_append h, unresolved_append]
  simp only [defined, rules, List.map_map, Function.comp_def]

theorem parse_append_cycle :
    Chunk.split (upperText ++ lowerText) = [⟨0, 7⟩, ⟨7, 10⟩] ∧
    syntaxErrors (upperText ++ lowerText) = [] ∧
    rules (upperText ++ lowerText) = rules upperText ++ (rules lowerText).map (·.shift 7) ∧
    undefinedNames (upperText ++ lowerText) =
      (undefinedNames upperText).filter (fun r => r.ident ∉ defined lowerText) ++
        ((undefinedNames lowerText).filter fun r => r.ident ∉ defined upperText).map
          (·.shift 7) := by
  have hseam : Seam upperText lowerText := ⟨.inr rfl, by decide, .inr (by decide)⟩
  obtain ⟨hsplit, hsyn, hrest⟩ := parse_append hseam
  have hupper : syntaxErrors upperText = [] := by
    rw [syntaxErrors_eq_nil_iff, show Chunk.split upperText = [⟨0, 7⟩] by decide]
    intro c hc
    rw [List.mem_singleton.mp hc]
    exact isRule_upperText
  have hlower : syntaxErrors lowerText = [] := by
    rw [syntaxErrors_eq_nil_iff, show Chunk.split lowerText = [⟨0, 3⟩] by decide]
    intro c hc
    rw [List.mem_singleton.mp hc]
    exact isRule_lowerText
  have hnone : syntaxErrors (upperText ++ lowerText) = [] := by
    rw [hsyn, hupper, hlower]
    rfl
  obtain ⟨hrules, hnames, -⟩ := hrest hnone
  exact ⟨hsplit.trans (by decide), hnone, hrules, hnames⟩

end Document

end Cddl
