import Quill.Proofs.Grammar.Arrangement

/-!
# Nodes and their own cells

A node is spelled by cells when it is made of parts that are laid on them and its span is theirs.
All that is deep inside it is spelled by some of these cells, in the order of the tree.
-/

namespace Quill

namespace Grammar

/-- The cells are those of the node: its parts are laid on them and its span goes from the first to
the last. -/
structure Spelled (e : Ending) (n : Node) (cells : List Cell) : Prop where
  parts : ∃ ps, Form e n ps ∧ Laid ps cells
  frames : Frames e n.span cells

namespace Frames

variable {e : Ending} {s : Span} {cells : List Cell}

theorem ne_nil (h : Frames e s cells) : cells ≠ [] := by
  obtain ⟨c, hc, -⟩ := h.first
  rintro rfl
  cases hc

theorem first_le (h : Frames e s cells) (ho : Ordered cells) {c : Cell} (hc : c ∈ cells) :
    s.first ≤ c.span.first := by
  obtain ⟨a, ha, hs⟩ := h.first
  obtain ⟨rest, rfl⟩ := List.head?_eq_some_iff.mp ha
  rw [hs]
  exact (ho.head_le hc).1

theorem le_last (h : Frames e s cells) (ho : Ordered cells) {c : Cell} (hc : c ∈ cells) :
    c.span.last ≤ s.last := by
  obtain ⟨z, hz, hs, -⟩ := h.last
  obtain ⟨front, rfl⟩ := List.getLast?_eq_some_iff.mp hz
  rw [hs]
  obtain hc | hc := List.mem_append.mp hc
  · have hle := (ho.precedes hc (List.mem_singleton_self z)).le
    exact hle.trans (ho.spans z (by simp))
  · obtain rfl := List.mem_singleton.mp hc
    exact le_rfl

theorem ordered (h : Frames e s cells) (ho : Ordered cells) : s.Ordered := by
  obtain ⟨c, more, rfl⟩ := List.exists_cons_of_ne_nil h.ne_nil
  have hc : c ∈ c :: more := List.mem_cons_self
  exact (h.first_le ho hc).trans ((ho.spans c hc).trans (h.le_last ho hc))

theorem covers {e' : Ending} {s' : Span} {some : List Cell} (h : Frames e s cells)
    (h' : Frames e' s' some) (ho : Ordered cells) (hs : some <:+: cells) : s.Covers s' := by
  obtain ⟨a, ha, hfirst⟩ := h'.first
  obtain ⟨z, hz, hlast, -⟩ := h'.last
  constructor
  · rw [hfirst]
    exact h.first_le ho (hs.subset (List.mem_of_head? ha))
  · rw [hlast]
    exact h.le_last ho (hs.subset (List.mem_of_getLast? hz))

theorem apart {e' : Ending} {s' : Span} {more : List Cell} (h : Frames e s cells)
    (h' : Frames e' s' more) (ho : Ordered (cells ++ more)) :
    s.last ≤ s'.first ∧ (e = .tight → s.last < s'.first) := by
  obtain ⟨z, hz, hlast, htight⟩ := h.last
  obtain ⟨a, ha, hfirst⟩ := h'.first
  have hprecedes := ho.precedes (List.mem_of_getLast? hz) (List.mem_of_head? ha)
  rw [hlast, hfirst]
  exact ⟨hprecedes.le, fun he ↦ hprecedes.lt (htight he)⟩

end Frames

theorem Laid.spelled {ps : List Part} {cells : List Cell} (h : Laid ps cells) {e : Ending}
    {n : Node} (hn : .node e n ∈ ps) : ∃ own, own <:+: cells ∧ Spelled e n own := by
  induction h with
  | nil => cases hn
  | @token c ps cells _ ih =>
    obtain ⟨own, hown, hs⟩ := ih ((List.mem_cons.mp hn).resolve_left nofun)
    exact ⟨own, hown.trans (List.suffix_cons c cells).isInfix, hs⟩
  | @definer k c ps cells _ _ ih =>
    obtain ⟨own, hown, hs⟩ := ih ((List.mem_cons.mp hn).resolve_left nofun)
    exact ⟨own, hown.trans (List.suffix_cons c cells).isInfix, hs⟩
  | @node e' n' ps qs cells more hf hl hfr _ _ ih =>
    obtain heq | hn := List.mem_cons.mp hn
    · cases heq
      exact ⟨cells, (List.prefix_append cells more).isInfix, ⟨qs, hf, hl⟩, hfr⟩
    · obtain ⟨own, hown, hs⟩ := ih hn
      exact ⟨own, hown.trans (List.suffix_append cells more).isInfix, hs⟩

theorem Laid.definer_doc {k : Keyword} {doc : Option String} {ps : List Part} {cells : List Cell}
    (h : Laid (.definer k doc :: ps) cells) :
    ∃ c, cells.head? = some c ∧ c.kind = .keyword k ∧ c.doc = doc := by
  cases h with
  | definer hk _ => exact ⟨_, rfl, hk, rfl⟩

theorem Laid.apart {ps : List Part} {cells : List Cell} (h : Laid ps cells) (ho : Ordered cells) :
    (nodes ps).Pairwise fun x y ↦ x.2.span.last ≤ y.2.span.first ∧
      (x.1 = .tight → x.2.span.last < y.2.span.first) := by
  induction h with
  | nil => exact .nil
  | @token c ps cells _ ih => exact ih (ho.sublist (List.sublist_cons_self c cells))
  | @definer k c ps cells _ _ ih => exact ih (ho.sublist (List.sublist_cons_self c cells))
  | @node e n ps qs cells more hf hl hfr hmore _ ih =>
    refine .cons (fun y hy ↦ ?_) (ih ho.right)
    obtain ⟨own, hown, hs⟩ := hmore.spelled (mem_nodes.mp hy)
    exact hfr.apart hs.frames (ho.sublist ((List.Sublist.refl cells).append hown.sublist))

theorem pairwise_of_dropLast {α : Type} {r s : α → α → Prop} {as : List α} (h : as.Pairwise r)
    (hs : ∀ a ∈ as.dropLast, ∀ b, r a b → s a b) : as.Pairwise s := by
  obtain rfl | ⟨front, z, rfl⟩ := List.eq_nil_or_concat as
  · exact .nil
  · rw [List.concat_eq_append] at h hs ⊢
    rw [List.dropLast_concat] at hs
    obtain ⟨hfront, -, hlast⟩ := List.pairwise_append.mp h
    refine List.pairwise_append.mpr ⟨?_, List.pairwise_singleton _ _, fun a ha b hb ↦ ?_⟩
    · exact hfront.imp_of_mem fun ha _ hab ↦ hs _ ha _ hab
    · exact hs a ha b (hlast a ha b hb)

namespace Spelled

variable {e : Ending} {n : Node} {cells : List Cell}

theorem child (h : Spelled e n cells) {m : Node} (hm : m ∈ n.children) :
    ∃ e' own, own <:+: cells ∧ Spelled e' m own := by
  obtain ⟨⟨ps, hform, hlaid⟩, hframes⟩ := h
  have sibling (hm : m ∈ n.siblings) : ∃ e' own, own <:+: cells ∧ Spelled e' m own := by
    obtain ⟨⟨e', m'⟩, hx, rfl⟩ := List.mem_map.mp (hform.arranged.siblings.subset hm)
    exact ⟨e', hlaid.spelled (mem_nodes.mp hx)⟩
  cases hform with
  | method hspan hhead hbody =>
    obtain hm | hm := List.mem_append.mp hm
    · exact sibling hm
    · obtain rfl := List.mem_singleton.mp hm
      refine ⟨.tight, cells, List.infix_rfl, ⟨_, .methodBody hhead hbody, hlaid⟩, ?_⟩
      rwa [Node.span, hspan]
  | _ => exact sibling hm

theorem inside (h : Spelled e n cells) {m : Node} (hm : n.Inside m) :
    ∃ e' own, own <:+: cells ∧ Spelled e' m own := by
  induction hm with
  | refl => exact ⟨e, cells, List.infix_rfl, h⟩
  | tail _ hm ih =>
    obtain ⟨e', own, hown, hs⟩ := ih
    obtain ⟨e'', own', hown', hs'⟩ := hs.child hm
    exact ⟨e'', own', hown'.trans hown, hs'⟩

theorem doc (h : Spelled e n cells) {text : String} (hd : n.doc = some text) :
    ∃ c, cells.head? = some c ∧ c.doc = some text := by
  obtain ⟨⟨ps, hform, hlaid⟩, -⟩ := h
  cases n with
  | method d =>
    cases hform with
    | method _ hhead _ =>
      cases hhead
      obtain ⟨c, hc, -, hdoc⟩ := hlaid.definer_doc
      exact ⟨c, hc, hdoc.trans hd⟩
  | type d =>
    cases hform
    obtain ⟨c, hc, -, hdoc⟩ := hlaid.definer_doc
    exact ⟨c, hc, hdoc.trans hd⟩
  | _ => cases hd

theorem covers (h : Spelled e n cells) (ho : Ordered cells) {m : Node} (hm : n.Inside m) :
    n.span.Covers m.span := by
  obtain ⟨e', own, hown, hs⟩ := h.inside hm
  exact h.frames.covers hs.frames ho hown

theorem siblings (h : Spelled e n cells) (ho : Ordered cells) :
    n.siblings.Pairwise fun x y ↦ x.span.last ≤ y.span.first ∧
      (x.ending = .tight → x.span.last < y.span.first) := by
  obtain ⟨⟨ps, hform, hlaid⟩, -⟩ := h
  have arranged := hform.arranged
  refine List.Pairwise.sublist arranged.siblings (List.pairwise_map.mpr ?_)
  refine pairwise_of_dropLast (hlaid.apart ho) fun x hx y hxy ↦ ?_
  rw [← arranged.ending_eq hx]
  exact hxy

end Spelled

end Grammar

end Quill
