import Quill.Proofs.Grammar.Form

/-!
# Nodes among the parts

The nodes that a form is made of are the children of the node, in the order of the tree. Only arms,
rescue clauses and the construct in an `if` can end loosely before something else comes.
-/

namespace Quill

namespace Node

/-- How a node ends, wherever it stands; a later branch of an `if` is the only exception. -/
def ending : Node → Grammar.Ending
  | arm _ | rescue _ | cond .. => .loose
  | _ => .tight

end Node

namespace Grammar

def Part.node? : Part → Option (Ending × Node)
  | .token _ | .definer .. => none
  | .node e n => some (e, n)

def nodes (ps : List Part) : List (Ending × Node) := ps.filterMap Part.node?

/-- Nodes that end as usual. -/
def usual (ns : List Node) : List (Ending × Node) := ns.map fun n ↦ (n.ending, n)

@[simp] theorem nodes_nil : nodes [] = [] := rfl

@[simp] theorem nodes_append (ps qs : List Part) : nodes (ps ++ qs) = nodes ps ++ nodes qs :=
  List.filterMap_append

@[simp] theorem nodes_token (k : Token.Kind) (ps : List Part) :
    nodes (.token k :: ps) = nodes ps := rfl

@[simp] theorem nodes_definer (k : Keyword) (doc : Option String) (ps : List Part) :
    nodes (.definer k doc :: ps) = nodes ps := rfl

@[simp] theorem nodes_node (e : Ending) (n : Node) (ps : List Part) :
    nodes (.node e n :: ps) = (e, n) :: nodes ps := rfl

theorem mem_nodes {e : Ending} {n : Node} {ps : List Part} :
    (e, n) ∈ nodes ps ↔ .node e n ∈ ps := by
  constructor
  · intro h
    obtain ⟨p, hp, hn⟩ := List.mem_filterMap.mp h
    cases p with
    | token k => cases hn
    | definer k doc => cases hn
    | node e' n' =>
      cases hn
      exact hp
  · exact fun h ↦ List.mem_filterMap.mpr ⟨_, h, rfl⟩

@[simp] theorem usual_nil : usual [] = [] := rfl

@[simp] theorem usual_cons (n : Node) (ns : List Node) :
    usual (n :: ns) = (n.ending, n) :: usual ns := rfl

@[simp] theorem usual_append (ns ms : List Node) : usual (ns ++ ms) = usual ns ++ usual ms :=
  List.map_append

@[simp] theorem usual_map_snd (ns : List Node) : (usual ns).map Prod.snd = ns := by
  simp [usual, Function.comp_def]

theorem nodes_of_tokens {ps : List Part} (h : ∀ p ∈ ps, ∃ k, p = .token k) : nodes ps = [] := by
  refine List.filterMap_eq_nil_iff.mpr fun p hp ↦ ?_
  obtain ⟨k, rfl⟩ := h p hp
  rfl

theorem Newlines.nodes {ps : List Part} (h : Newlines ps) : nodes ps = [] :=
  nodes_of_tokens fun p hp ↦ ⟨_, h p hp⟩

theorem Separators.nodes {ps : List Part} (h : Separators ps) : nodes ps = [] :=
  nodes_of_tokens fun p hp ↦ (h p hp).imp fun _ hk ↦ hk.1

theorem Break.nodes {ps : List Part} (h : Break ps) : nodes ps = [] := h.separators.nodes

theorem Sequence.nodes {es : List Expr} {ps : List Part} (h : Sequence es ps) :
    nodes ps = usual (es.map .expr) := by
  induction h with
  | nil => rfl
  | separators _ hs ih => simp [ih, hs.nodes]
  | statement _ _ ih => simp [ih, Node.ending]

theorem Opened.nodes {is : List (List Part)} {ps : List Part} (h : Opened is ps) :
    nodes ps = is.flatMap Grammar.nodes := by
  induction h with
  | start h => exact h.nodes
  | comma _ hn hm ih => simp [ih, hn.nodes, hm.nodes]

theorem Listed.nodes {is : List (List Part)} {ps : List Part} (h : Listed is ps) :
    nodes ps = is.flatMap Grammar.nodes := by
  cases h with
  | opened h => exact h.nodes
  | last h hn => simp [h.nodes, hn.nodes]

theorem flatMap_nodes {α : Type} {f : α → List Part} {g : α → Node}
    (h : ∀ a, nodes (f a) = usual [g a]) (as : List α) :
    (as.map f).flatMap nodes = usual (as.map g) := by
  induction as with
  | nil => rfl
  | cons a as ih => simp [h a, ih]

theorem nodes_argItems (args : List Expr) (pass : Option Expr) :
    (argItems args pass).flatMap nodes =
      usual (args.map .expr ++ pass.toList.map (Node.ofBlockArg <| .pass ·)) := by
  rw [argItems, List.flatMap_append, flatMap_nodes (g := .expr) fun _ ↦ rfl,
    flatMap_nodes (g := (Node.ofBlockArg <| .pass ·)) fun _ ↦ rfl, usual_append]

theorem nodes_paramItems (p : Params) :
    (paramItems p).flatMap nodes = usual (Node.ofParams p) := by
  rw [paramItems, List.flatMap_append, flatMap_nodes (g := .pattern) fun _ ↦ rfl,
    flatMap_nodes (g := .ident) fun _ ↦ rfl, ← usual_append]
  rfl

theorem Suffix.nodes {explicit : Bool} {a : Arguments} {ps : List Part}
    (h : Suffix explicit a ps) :
    nodes ps = usual (a.args.map .expr ++ a.block.toList.map Node.ofBlockArg) := by
  cases h with
  | none => rfl
  | block => rfl
  | @list args pass ps h => cases pass <;> simp [h.nodes, nodes_argItems]
  | both h => simp [h.nodes, nodes_argItems, Node.ofBlockArg, Node.ending]

theorem Parameters.nodes {first last : Mark} {p : Params} {ps : List Part}
    (h : Parameters first last p ps) : nodes ps = usual (Node.ofParams p) := by
  cases h with
  | none => rfl
  | list h => simp [h.nodes, nodes_paramItems]

theorem Bars.nodes {p : Params} {ps : List Part} (h : Bars p ps) :
    nodes ps = usual (Node.ofParams p) := by
  cases h with
  | list h => exact h.nodes
  | empty => rfl

@[simp] theorem nodes_guardParts (guard : Option Expr) :
    nodes (guardParts guard) = usual (guard.toList.map .expr) := by
  cases guard <;> rfl

@[simp] theorem nodes_superParts (superclass : Option Expr) :
    nodes (superParts superclass) = usual (superclass.toList.map .expr) := by
  cases superclass <;> rfl

theorem Tail.nodes {word : Keyword} {es : Option (List Expr)} {ps : List Part}
    (h : Tail word es ps) : nodes ps = usual ((es.getD []).map .expr) := by
  cases h with
  | none => rfl
  | some h => exact h.nodes

theorem nodes_map {α : Type} {e : Ending} {f : α → Node} (h : ∀ a, (f a).ending = e)
    (as : List α) : nodes (as.map fun a ↦ .node e (f a)) = usual (as.map f) := by
  induction as with
  | nil => rfl
  | cons a as ih => simp [h a, ih]

theorem Protected.nodes {b : Body} {ps : List Part} (h : Protected b ps) :
    nodes ps = usual (Node.children (.body b)) := by
  obtain ⟨hs, he, hf⟩ := h
  simp [hs.nodes, he.nodes, hf.nodes, Node.children, nodes_map (f := .rescue) fun _ ↦ rfl]

theorem Head.nodes {d : MethodDef} {ps : List Part} (h : Head d ps) :
    nodes ps = usual (Node.ofHead d) := by
  obtain ⟨hp, hb⟩ := h
  cases d.singleton <;> simp [hp.nodes, hb.nodes, Node.ofHead, Node.ending]

/-- Nodes that are in the tree where they are among the parts, and end as usual. -/
structure Arranged (n : Node) (ps : List Part) : Prop where
  siblings : n.siblings.Sublist ((nodes ps).map Prod.snd)
  /-- A later branch of an `if` is the last part of the branch before. -/
  endings : (∀ x ∈ nodes ps, x.1 = x.2.ending) ∨
    n.ending = .loose ∧ ∀ x ∈ (nodes ps).dropLast, x.1 = x.2.ending

theorem Arranged.ending_eq {n : Node} {ps : List Part} (h : Arranged n ps) {x : Ending × Node}
    (hx : x ∈ (nodes ps).dropLast) : x.1 = x.2.ending := by
  obtain h | ⟨-, h⟩ := h.endings
  · exact h x (List.dropLast_subset _ hx)
  · exact h x hx

theorem Arranged.of_nodes {n : Node} {ps : List Part} (ns : List Node) (h : nodes ps = usual ns)
    (hn : n.siblings.Sublist ns) : Arranged n ps where
  siblings := by rwa [h, usual_map_snd]
  endings := .inl fun x hx ↦ by
    rw [h] at hx
    obtain ⟨m, -, rfl⟩ := List.mem_map.mp hx
    rfl

theorem Arranged.of_eq {n : Node} {ps : List Part} (h : nodes ps = usual n.siblings) :
    Arranged n ps := .of_nodes _ h (.refl _)

theorem ofKind_assignmentKind (op : Option Compound) (t : Target) (e : Expr) :
    Node.ofKind (assignmentKind op t e) = Node.ofTarget t ++ [.expr e] := by
  cases op <;> rfl

theorem NameTarget.nodes {i : Ident} {t : Target} (h : NameTarget i t) :
    Node.ofTarget t = [.ident i] := by
  obtain rfl | rfl | rfl := h <;> rfl

theorem CallTarget.sublist {receiver : Expr} {m : Ident} {args : List Expr} {t : Target}
    (h : CallTarget receiver m args t) :
    (Node.ofTarget t).Sublist (Node.ofKind (.call (some receiver) m args none)) := by
  obtain ⟨-, rfl⟩ | ⟨rfl, -, rfl⟩ := h
  · exact .cons_cons _ (.cons _ (List.sublist_append_left _ _))
  · exact .refl _

theorem Arranged.branch {s : Span} {c : Expr} {es : List Expr} {elseBody : Option (List Expr)}
    {word : Keyword} {bs ps qs : List Part} (hb : Break bs) (hs : Sequence es ps)
    (ho : Otherwise elseBody qs) :
    Arranged (.cond s c es elseBody) (.word word :: .expr c :: (bs ++ (ps ++ qs))) := by
  cases ho with
  | tail h =>
    refine .of_eq ?_
    simp [hb.nodes, hs.nodes, h.nodes, Node.siblings, Node.children, Node.ending]
  | @branch e =>
    have hnodes :
        Grammar.nodes (.word word :: .expr c :: (bs ++ (ps ++ [.node .loose (.expr e)]))) =
          usual (.expr c :: es.map .expr) ++ [(.loose, .expr e)] := by
      simp [hb.nodes, hs.nodes, Node.ending]
    refine ⟨?_, .inr ⟨rfl, fun x hx ↦ ?_⟩⟩
    · rw [hnodes, List.map_append, usual_map_snd]
      exact .refl _
    · rw [hnodes, List.dropLast_concat] at hx
      obtain ⟨m, -, rfl⟩ := List.mem_map.mp hx
      rfl

theorem nodes_segments (is : List Ident) :
    nodes (is.flatMap ([.mark .dot, .ident ·])) = usual (is.map .ident) := by
  induction is with
  | nil => rfl
  | cons i is ih => simp [ih, Node.ending]

theorem Form.arranged {e : Ending} {n : Node} {ps : List Part} (h : Form e n ps) :
    Arranged n ps := by
  induction h with
  | targetName _ _ ih => exact ⟨List.nil_sublist _, .inl (ih.endings.resolve_right nofun)⟩
  | path =>
    refine .of_eq ?_
    rw [nodes_node, nodes_segments]
    rfl
  | listPattern h =>
    refine .of_eq ?_
    rw [nodes_token, nodes_append, h.nodes, flatMap_nodes (g := .pattern) fun _ ↦ rfl]
    exact List.append_nil _
  -- Parentheses and line breaks are no nodes, so the nodes are those of what stands inside.
  | @parens k s s' ps ns ms _ hn hm ih =>
    have hnodes : nodes (.mark .lParen :: (ns ++ (ps ++ (ms ++ [.mark .rParen])))) = nodes ps := by
      simp [hn.nodes, hm.nodes]
    refine ⟨?_, ?_⟩
    · rw [hnodes]
      exact ih.siblings
    · rw [hnodes]
      exact .inl (ih.endings.resolve_right nofun)
  | list h =>
    refine .of_eq ?_
    simp [h.nodes, nodes_argItems, Node.siblings, Node.children, Node.ofKind]
  | nameCall h =>
    refine .of_eq ?_
    simp [h.nodes, Node.siblings, Node.children, Node.ofKind, Node.ending]
  | call hn hm h =>
    refine .of_eq ?_
    simp [hn.nodes, hm.nodes, h.nodes, Node.siblings, Node.children, Node.ofKind, Node.ending]
  | index h =>
    refine .of_eq ?_
    simp [h.nodes, nodes_argItems, Node.siblings, Node.children, Node.ofKind, Node.ending]
  | @superCall a explicit s ps h =>
    refine .of_eq ?_
    have hargs : (if explicit then some a.args else none).getD [] = a.args := by
      cases h <;> rfl
    simp only [Node.siblings, Node.children, Node.ofKind, hargs, nodes_token]
    exact h.nodes
  | yieldCall h =>
    refine .of_eq ?_
    simp [h.nodes, nodes_argItems, Node.siblings, Node.children, Node.ofKind]
  | binary _ hn =>
    refine .of_eq ?_
    simp [hn.nodes, Node.siblings, Node.children, Node.ofKind, Node.ending]
  | logical _ hn =>
    refine .of_eq ?_
    simp [hn.nodes, Node.siblings, Node.children, Node.ofKind, Node.ending]
  | fits _ hn =>
    refine .of_eq ?_
    simp [hn.nodes, Node.siblings, Node.children, Node.ofKind, Node.ending]
  | assignName _ ht hn =>
    refine .of_eq ?_
    simp [hn.nodes, Node.siblings, Node.children, ofKind_assignmentKind, ht.nodes, Node.ending]
  -- The target is written as a call, whose parts are arranged already; the value comes after them.
  | @assignCall k op receiver m args t e s s' ps ns _ ht _ hn ih =>
    have hnodes : nodes (ps ++ .token k :: (ns ++ [.expr e])) = nodes ps ++ usual [.expr e] := by
      simp [hn.nodes, Node.ending]
    refine ⟨?_, .inl fun x hx ↦ ?_⟩
    · rw [hnodes, List.map_append, usual_map_snd]
      simp only [Node.siblings, Node.children, ofKind_assignmentKind]
      exact (ht.sublist.trans ih.siblings).append (.refl _)
    · rw [hnodes] at hx
      obtain hx | hx := List.mem_append.mp hx
      · exact ih.endings.resolve_right (fun h ↦ nomatch h.1) x hx
      · obtain rfl := List.mem_singleton.mp hx
        rfl
  | destructure hn =>
    refine .of_eq ?_
    simp [hn.nodes, Node.siblings, Node.children, Node.ofKind, Node.ending]
  | branch _ hb hs ho => exact .branch hb hs ho
  | loop hb hs =>
    refine .of_eq ?_
    simp [hb.nodes, hs.nodes, Node.siblings, Node.children, Node.ending]
  | forEach hb hs =>
    refine .of_eq ?_
    simp [hb.nodes, hs.nodes, Node.siblings, Node.children, Node.ending]
  | select hb _ ht =>
    refine .of_eq ?_
    simp [hb.nodes, ht.nodes, Node.siblings, Node.children, Node.ending,
      nodes_map (f := .arm) fun _ ↦ rfl]
  | arm hb hs =>
    refine .of_eq ?_
    simp [hb.nodes, hs.nodes, Node.siblings, Node.children, Node.ending]
  | rescue hb hs =>
    refine .of_eq ?_
    simp [hb.nodes, hs.nodes, Node.siblings, Node.children,
      nodes_map (f := .pattern) fun _ ↦ rfl]
  | body h => exact .of_eq h.nodes
  -- The body has the span of the whole method, so the nodes of the head are among its parts.
  | @methodBody d ps qs hh hp =>
    refine .of_nodes (Node.ofHead d ++ Node.children (.body d.body)) ?_ ?_
    · rw [nodes_append, hh.nodes, hp.nodes, usual_append]
    · exact List.sublist_append_right _ _
  | @method d ps qs _ hh hp =>
    refine .of_nodes (Node.ofHead d ++ Node.children (.body d.body)) ?_ ?_
    · rw [nodes_append, hh.nodes, hp.nodes, usual_append]
    · exact List.sublist_append_left _ _
  | type _ hb hs =>
    refine .of_eq ?_
    simp [hb.nodes, hs.nodes, Node.siblings, Node.children, Node.ending]
  | block _ hb hs =>
    refine .of_eq ?_
    simp [hb.nodes, hs.nodes, Node.siblings, Node.children]
  | _ => exact .of_eq rfl

end Grammar

end Quill
