import Mathlib.Algebra.Group.Int.Defs
import Quill.Proofs.Printing.Patterns
import Quill.Proofs.SpanNesting

/-!
# Trees of programs are well formed

The grammar checks where splats stand, which names are bound, what is assigned to and how numbers
are negated at the places where these are read. Main statement: `trees_are_well_formed`, what this
comes to for all nodes of a program.
-/

namespace Quill

namespace Node

/-- The patterns that stand in a list in the node, one of which may be a splat. -/
def items : Node → List Pattern
  | pattern (.list items _) => items
  | block b => b.params.items
  | method d => d.params.items
  | _ => []

def single? : Node → Option Pattern
  | expr ⟨.fits _ p, _⟩ => some p
  | expr ⟨.destructure p _, _⟩ => some p
  | forEach _ p _ _ => some p
  | arm a => some a.pattern
  | rescue r => r.pattern
  | _ => none

theorem pattern_not_mem_ofTarget {p : Pattern} {t : Target} : pattern p ∉ ofTarget t := by
  cases t <;> simp [ofTarget]

theorem ofBlockArg_ne_pattern {p : Pattern} {b : BlockArg} : ofBlockArg b ≠ pattern p := by
  cases b <;> nofun

theorem mem_items_of_params {p : Pattern} {q : Params} (h : pattern p ∈ ofParams q) :
    p ∈ q.items := by
  simpa [ofParams] using h

theorem pattern_mem_children {n : Node} {p : Pattern} (h : pattern p ∈ n.children) :
    p ∈ n.items ∨ n.single? = some p := by
  cases n with
  | expr e =>
    obtain ⟨k, s⟩ := e
    cases k <;> simp [children, ofKind, pattern_not_mem_ofTarget, ofBlockArg_ne_pattern] at h
    case fits => exact .inr (congrArg some h.symm)
    case destructure => exact .inr (congrArg some h.symm)
  | pattern q =>
    cases q <;> simp [children, ofPattern] at h
    case list => exact .inl h
  | block b => exact .inl (mem_items_of_params (by simpa [children] using h))
  | method d => exact .inl (mem_items_of_params (by simpa [children, ofHead] using h))
  | rescue r => exact .inr (by simpa [children, single?] using h)
  | _ => simp_all [children, single?]

/-- The name that the node binds to whatever is there: without a type, or to the rest of a list. -/
def bound? : Node → Option String
  | pattern (.bind i none) => some i.name
  | pattern (.splat (some i) _) => some i.name
  | _ => none

def literal? : Node → Option Literal
  | expr ⟨.literal v, _⟩ => some v
  | pattern (.literal v _) => some v
  | _ => none

end Node

structure IsSetterName (name : String) : Prop where
  start : ∃ c cs, name.toList = c :: cs ∧ Token.startsName c = true
  plain : '?' ∉ name.toList ∧ '!' ∉ name.toList

/-- The shape that can be relied on when the node is evaluated. -/
structure Node.WellFormed (n : Node) : Prop where
  splats : n.items.countP (·.isSplat) ≤ 1
  placed : ∀ p, .pattern p ∈ n.children → p.isSplat = true → p ∈ n.items
  bound : ∀ name ∈ n.bound?, name ≠ "_"
  path : ∀ p, n = .path p →
    p.segments ≠ [] ∧ ∀ i ∈ p.segments, Token.isName Char.isUpper false i.name = true
  arms : ∀ s e as elseBody, n = .select s e as elseBody → as ≠ []
  member : ∀ receiver i, n.target? = some (.member receiver i) → IsSetterName i.name
  number : ∀ i, n.literal? = some (.int i) → -(2 ^ 63 - 1) ≤ i.toInt ∧ i.toInt ≤ 2 ^ 63 - 1

namespace Token

theorem not_mem_of_continuation {suffixed : Bool} {cs : List Char}
    (h : continuation suffixed cs = true)
    (hlast : ∀ c ∈ cs.getLast?, c ≠ '?' ∧ c ≠ '!') : '?' ∉ cs ∧ '!' ∉ cs := by
  induction cs with
  | nil => exact ⟨nofun, nofun⟩
  | cons c cs ih =>
    rw [continuation] at h
    split at h
    · rename_i hc
      obtain ⟨hq, he⟩ := ih h fun d hd ↦ hlast d (by rw [List.getLast?_cons, hd]; rfl)
      refine ⟨fun hm ↦ ?_, fun hm ↦ ?_⟩
      · obtain rfl | hm := List.mem_cons.mp hm
        · exact absurd hc (by decide)
        · exact hq hm
      · obtain rfl | hm := List.mem_cons.mp hm
        · exact absurd hc (by decide)
        · exact he hm
    · simp only [Bool.and_eq_true, List.isEmpty_iff] at h
      obtain ⟨⟨-, rfl⟩, hmark⟩ := h
      obtain ⟨hq, he⟩ := hlast c rfl
      simp [hq, he] at hmark

end Token

theorem IsSetterName.of_identifier {name : String}
    (h : Token.isName Token.startsName true name = true)
    (hlast : ∀ c ∈ name.toList.getLast?, c ≠ '?' ∧ c ≠ '!') : IsSetterName name := by
  unfold Token.isName at h
  split at h
  · cases h
  · rename_i c cs hname
    obtain ⟨hc, hcs⟩ := Bool.and_eq_true_iff.mp h
    rw [hname] at hlast
    have hrest := Token.not_mem_of_continuation hcs fun d hd ↦
      hlast d (by rw [List.getLast?_cons, hd]; rfl)
    refine ⟨⟨c, cs, hname, hc⟩, ?_, ?_⟩
    · rw [hname]
      exact List.not_mem_cons_of_ne_of_not_mem (by rintro rfl; cases hc) hrest.1
    · rw [hname]
      exact List.not_mem_cons_of_ne_of_not_mem (by rintro rfl; cases hc) hrest.2

theorem Ident.Called.isName {i : Ident} (h : i.Called Token.Kind.IsRead)
    (hs : i.name.toList.head?.any Token.startsName = true) :
    Token.isName Token.startsName true i.name = true := by
  cases h with
  | identifier h => exact h.1
  | constant h =>
    have hupper : Token.isName Char.isUpper false i.name = true := h
    unfold Token.isName at hupper
    split at hupper
    · cases hupper
    · rename_i c cs hname
      rw [hname] at hs
      have hc := (Bool.and_eq_true_iff.mp hupper).1
      rw [(startsName_disjoint hs).2] at hc
      cases hc
  | @word w h =>
    rw [h]
    cases w <;> decide
  | @operator m _ h =>
    have hnone : m.text.toList.head?.any Token.startsName = false := by
      cases m <;> rfl
    rw [h, hnone] at hs
    cases hs
  | index h =>
    rw [h] at hs
    cases hs

theorem IsSetterName.of_called {i : Ident} (h : i.Called Token.Kind.IsRead)
    (hs : Grammar.hasSetter i.name = true) : IsSetterName i.name := by
  obtain ⟨hstart, hend⟩ := Bool.and_eq_true_iff.mp hs
  refine .of_identifier (h.isName hstart) fun c hc ↦ ?_
  rw [Option.mem_def.mp hc] at hend
  simpa [not_or] using hend

theorem int_bounds {i : Int64} (h : i ≠ Int64.minValue) :
    -(2 ^ 63 - 1) ≤ i.toInt ∧ i.toInt ≤ 2 ^ 63 - 1 := by
  have hle := i.le_toInt
  have hlt := i.toInt_lt
  have hne : i.toInt ≠ -2 ^ 63 := fun heq ↦ h (Int64.toInt_inj.mp (heq.trans (by decide)))
  omega

namespace Grammar

/-- What is assigned to by index is written as a call of the method for that, without a block. -/
theorem Form.index_target {ending : Ending} {n : Node} {ps : List Part} (h : Form ending n ps)
    {receiver : Expr} {args : List Expr} (ht : n.target? = some (.index receiver args)) :
    ∃ m s qs, m.name = "[]" ∧ qs <:+: ps ∧
      Form .tight (.expr ⟨.call (some receiver) m args none, s⟩) qs := by
  induction h with
  | @parens k _ _ ps ns ms _ _ _ ih =>
    obtain ⟨m, s, qs, hm, hqs, hform⟩ := ih (by cases k <;> exact ht)
    exact ⟨m, s, qs, hm, hqs.trans ⟨.mark .lParen :: ns, ms ++ [.mark .rParen], by simp⟩, hform⟩
  | @assignName _ op _ t e _ _ _ hname =>
    have htarget : t = .index receiver args := by cases op <;> exact Option.some.inj ht
    obtain h | h | h := hname <;> rw [htarget] at h <;> cases h
  | @assignCall _ op _ m _ t e _ s' ps ns _ hcall hform _ =>
    have htarget : t = .index receiver args := by cases op <;> exact Option.some.inj ht
    subst htarget
    obtain ⟨hm, heq⟩ | ⟨-, -, heq⟩ := hcall
    · cases heq
      exact ⟨m, s', ps, hm, (List.prefix_append _ _).isInfix, hform⟩
    · cases heq
  | _ => cases ht

theorem Laid.split {ps qs : List Part} {cells : List Cell} (h : Laid (ps ++ qs) cells) :
    ∃ front rest, cells = front ++ rest ∧ Laid ps front ∧ Laid qs rest := by
  induction ps generalizing cells with
  | nil => exact ⟨[], cells, rfl, .nil, h⟩
  | cons p ps ih =>
    rw [List.cons_append] at h
    cases h with
    | @token c _ _ h =>
      obtain ⟨front, rest, rfl, hfront, hrest⟩ := ih h
      exact ⟨c :: front, rest, rfl, .token hfront, hrest⟩
    | @definer k c _ _ hk h =>
      obtain ⟨front, rest, rfl, hfront, hrest⟩ := ih h
      exact ⟨c :: front, rest, rfl, .definer hk hfront, hrest⟩
    | node hform hlaid hframes h =>
      obtain ⟨front, rest, rfl, hfront, hrest⟩ := ih h
      exact ⟨_, rest, (List.append_assoc ..).symm, .node hform hlaid hframes hfront, hrest⟩

theorem Laid.infix {ps qs : List Part} {cells : List Cell} (h : Laid ps cells) (hq : qs <:+: ps) :
    ∃ own, own <:+: cells ∧ Laid qs own := by
  obtain ⟨front, back, rfl⟩ := hq
  obtain ⟨cells, after, rfl, hcells, -⟩ := h.split
  obtain ⟨before, own, rfl, -, hown⟩ := hcells.split
  exact ⟨own, ⟨before, after, rfl⟩, hown⟩

end Grammar

theorem Node.Sound.single {K : Token.Kind → Prop} {n : Node} {p : Pattern} (h : n.Sound K)
    (hp : n.single? = some p) : p.isSplat = false := by
  unfold single? at hp
  split at hp
  · exact Option.some.inj hp ▸ h
  · exact Option.some.inj hp ▸ h
  · exact Option.some.inj hp ▸ h
  · exact Option.some.inj hp ▸ h
  · exact h p hp
  · cases hp

theorem Node.Sound.literal {K : Token.Kind → Prop} {n : Node} {v : Literal} (h : n.Sound K)
    (hv : n.literal? = some v) : v.Spelled K := by
  unfold literal? at hv
  split at hv
  · exact Option.some.inj hv ▸ h
  · exact Option.some.inj hv ▸ h
  · cases hv

theorem Node.Sound.target {K : Token.Kind → Prop} {n : Node} {t : Target} (h : n.Sound K)
    (ht : n.target? = some t) : t.Sound K := by
  unfold target? at ht
  split at ht
  · exact Option.some.inj ht ▸ h
  · exact Option.some.inj ht ▸ h
  · cases ht

theorem Node.Sound.wellFormed {n : Node} (h : n.Sound Token.Kind.IsRead) : n.WellFormed where
  splats := by
    cases n with
    | block b => exact Params.Spelled.items h |>.splats
    | method d => exact Params.Spelled.items h |>.splats
    | pattern p =>
      cases p with
      | list items s => exact (Pattern.spelled_list (s := s).mp h).splats
      | _ => exact Nat.zero_le 1
    | _ => exact Nat.zero_le 1
  -- A splat stands in a list, for a pattern that stands by itself is none.
  placed p hp hs := (pattern_mem_children hp).resolve_right fun hsingle ↦ by
    rw [h.single hsingle] at hs
    cases hs
  bound name hname := by
    cases n with
    | pattern p =>
      cases p with
      | bind i path =>
        cases path with
        | none =>
          cases hname
          exact h.2
        | some path => cases hname
      | splat i s =>
        cases i with
        | none => cases hname
        | some i =>
          cases hname
          exact h.2
      | _ => cases hname
    | _ => cases hname
  path p hp := by
    subst hp
    exact ⟨TypePath.Spelled.ne_nil h, TypePath.Spelled.constants h⟩
  arms s e as elseBody hn := by
    subst hn
    exact h
  member receiver i ht := .of_called (h.target ht).2 (h.target ht).1
  number i hi := int_bounds (h.literal hi).ne_minValue

open Grammar

/-- Every node of a program is well formed, and what is assigned to by index is written as a call
of the method for that, without a block. -/
theorem trees_are_well_formed {text : String} {p : Program} (h : Program.ofText? text = .ok p) :
    ∃ ts, Token.ofText? text = .ok ts ∧ ∀ n, (Node.program p).Inside n → n.WellFormed ∧
      ∀ receiver args, n.target? = some (.index receiver args) →
        ∃ m s ps own, m.name = "[]" ∧ own <:+: words ts ∧ Laid ps own ∧
          Form .tight (.expr ⟨.call (some receiver) m args none, s⟩) ps := by
  obtain ⟨ts, hts, -⟩ := program_spelled h
  refine ⟨ts, hts, fun n hn ↦
    ⟨(Program.ofText?_sound h n hn).wellFormed, fun receiver args ht ↦ ?_⟩⟩
  obtain rfl | ⟨e, he, hn⟩ := Node.inside_program hn
  · cases ht
  · obtain ⟨ending, own, hown, ⟨ps, hform, hlaid⟩, -⟩ := inside_spelled h hts he hn
    obtain ⟨m, s, qs, hm, hqs, hcall⟩ := hform.index_target ht
    obtain ⟨own', hown', hlaid'⟩ := hlaid.infix hqs
    exact ⟨m, s, qs, own', hm, hown'.trans hown, hlaid', hcall⟩

theorem assignments_are_well_formed :
    ∃ p, Program.ofText? "[a, *_] = l; (l[0]) = -9223372036854775807; l.x += 1" = .ok p ∧
      ∀ n, (Node.program p).Inside n → n.WellFormed := by
  have hok : (Program.ofText?
      "[a, *_] = l; (l[0]) = -9223372036854775807; l.x += 1").toBool = true := by
    decide +kernel
  cases h : Program.ofText? "[a, *_] = l; (l[0]) = -9223372036854775807; l.x += 1" with
  | error e =>
    rw [h] at hok
    cases hok
  | ok p =>
    obtain ⟨ts, -, hnodes⟩ := trees_are_well_formed h
    exact ⟨p, rfl, fun n hn ↦ (hnodes n hn).1⟩

end Quill
