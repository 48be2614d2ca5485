import Quill.Proofs.Data.Text
import Quill.Proofs.Fresh

/-!
# Showing data and reading them back

Main statement: `shown_is_read_back`. The text that `inspect` gives for a datum is read as an
expression, which evaluates to the same datum again.
-/

namespace Quill

namespace State

variable {s s' : State}

mutual

theorem Holds.lasts (hs : s.Keeps s') : (d : Datum) → ∀ {v}, s.Holds v d → s'.Holds v d
  | .scalar _, _, h => h
  | .list ds, _, ⟨l, items, hv, hitems, hall⟩ =>
    ⟨l, items, hv, hs.lists _ _ hitems, HoldsAll.lasts hs ds hall⟩

theorem HoldsAll.lasts (hs : s.Keeps s') :
    (ds : List Datum) → ∀ {vs}, s.HoldsAll vs ds → s'.HoldsAll vs ds
  | [], [], _ => trivial
  | d :: ds, _ :: _, ⟨h, hall⟩ => ⟨Holds.lasts hs d h, HoldsAll.lasts hs ds hall⟩

end

theorem ofLiteral_ne_list (x : Scalar) (l : ListId) : Value.ofLiteral x.literal ≠ .list l := by
  cases x <;> nofun

mutual

theorem Holds.depth_eq : (d d' : Datum) → ∀ {v}, s.Holds v d → s.Holds v d' → d.depth = d'.depth
  | .scalar _, .scalar _, _, _, _ => rfl
  | .scalar x, .list _, _, h, ⟨l, _, h', _⟩ => absurd (h.symm.trans h') (ofLiteral_ne_list x l)
  | .list _, .scalar x, _, ⟨l, _, h', _⟩, h => absurd (h.symm.trans h') (ofLiteral_ne_list x l)
  | .list ds, .list ds', _, ⟨l, items, hv, hitems, hall⟩, ⟨l', items', hv', hitems', hall'⟩ => by
    cases hv.symm.trans hv'
    cases hitems.symm.trans hitems'
    exact congrArg (· + 1) (HoldsAll.depth_eq ds ds' hall hall')

theorem HoldsAll.depth_eq : (ds ds' : List Datum) → ∀ {vs}, s.HoldsAll vs ds → s.HoldsAll vs ds' →
    Datum.depthOf ds = Datum.depthOf ds'
  | [], [], _, _, _ => rfl
  | d :: ds, d' :: ds', _ :: _, ⟨h, hall⟩, ⟨h', hall'⟩ => by
    rw [Datum.depthOf, Datum.depthOf, Holds.depth_eq d d' h h', HoldsAll.depth_eq ds ds' hall hall']
  | [], _ :: _, [], _, h => h.elim
  | [], _ :: _, _ :: _, h, _ => h.elim
  | _ :: _, [], [], h, _ => h.elim
  | _ :: _, [], _ :: _, _, h => h.elim

end

theorem HoldsAll.depth_le {v : Value} {vs : List Value} {ds : List Datum} (h : s.HoldsAll vs ds)
    (hv : v ∈ vs) : ∃ d, s.Holds v d ∧ d.depth ≤ Datum.depthOf ds := by
  induction vs generalizing ds with
  | nil => cases hv
  | cons w vs ih =>
    cases ds with
    | nil => exact h.elim
    | cons d ds =>
      obtain ⟨hw, hall⟩ := h
      obtain rfl | hv := List.mem_cons.mp hv
      · exact ⟨d, hw, Nat.le_max_left _ _⟩
      · obtain ⟨d', hd', hle⟩ := ih hall hv
        exact ⟨d', hd', Nat.le_trans hle (Nat.le_max_right _ _)⟩

theorem Holds.not_own_item {l : ListId} {items : Array Value} {ds : List Datum}
    (hl : s.lists[l.index]? = some items) (h : s.HoldsAll items.toList ds) :
    ∀ v ∈ items.toList, v.list? ≠ some l := by
  intro v hv hown
  obtain rfl : v = .list l := by
    cases v <;> first | cases hown; rfl | cases hown
  obtain ⟨d, hd, hle⟩ := h.depth_le hv
  have hlist : s.Holds (.list l) (.list ds) := ⟨l, items, rfl, hl, h⟩
  have hdepth := Holds.depth_eq d (.list ds) hd hlist
  rw [Datum.depth] at hdepth
  omega

end State

theorem Datum.lasting_value (d : Datum) :
    Lasting fun s o ↦ ∃ v, o = .ok v ∧ s.Holds v d :=
  fun _ _ _ hs ⟨v, ho, h⟩ ↦ ⟨v, ho, h.lasts hs d⟩

mutual

theorem Datum.eval_yields (ctx : Context) : (d : Datum) → ∀ {e : Expr} {s : State},
    d.tree.Spanned e → s.config.stepLimit = none →
      (Task.eval e ctx).Yields s fun s' o ↦ ∃ v, o = .ok v ∧ s'.Holds v d
  | .scalar x, e, s, he, hs => by
    refine .eval hs ?_
    rw [Eval.expression, (x.spanned_iff e).mp he]
    exact .pure ⟨_, rfl, rfl⟩
  | .list ds, _, s, .list he, hs => by
    refine .eval hs (.bind_ok (Datum.values_yield ctx ds [] he hs) fun s₁ vs _ hall ↦ ?_)
    -- The new list leaves its items as they are.
    have hgrows := State.Grows.newList s₁ vs.toArray
    exact ⟨_, _, .newList vs s₁, hgrows, _, rfl, ⟨s₁.lists.size⟩, vs.toArray, rfl,
      Array.getElem?_push_size, hall.lasts hgrows.toKeeps⟩

theorem Datum.values_yield (ctx : Context) : (ds : List Datum) → ∀ {es : List Expr} {s : State}
    (done : List Value), List.Forall₂ Tree.Spanned (treesOf ds) es → s.config.stepLimit = none →
      (Eval.valuesOnto ctx done es).Yields s fun s' o ↦
        ∃ vs, o = .ok (done.reverse ++ vs) ∧ s'.HoldsAll vs ds
  | [], [], s, done, .nil, _ => .pure ⟨[], by rw [List.append_nil], trivial⟩
  | d :: ds, e :: es, s, done, .cons he hes, hs => by
    refine .bind_ok (.keeping d.lasting_value _ (.perform (d.eval_yields ctx he hs)))
      fun s₁ v hgrows hv ↦ ?_
    have hs₁ : s₁.config.stepLimit = none := by rw [hgrows.config, hs]
    obtain ⟨_, s', hgives, hgrows', vs, rfl, hall⟩ :=
      Datum.values_yield ctx ds (v :: done) hes hs₁
    refine ⟨_, s', hgives, hgrows', v :: vs, ?_, hv.lasts hgrows'.toKeeps, hall⟩
    rw [List.reverse_cons, List.append_assoc, List.singleton_append]

end

theorem offers_of_showPlainly {ts : Types} (h : ts.showPlainly = true) {t : CoreType}
    (ht : t ∈ [CoreType.nil, .bool, .int, .symbol, .string, .list]) :
    ts.offers t (Routine.inspectEntry t) = true := List.all_eq_true.mp h t ht

theorem ListRoutine.inspect_yields {s : State} {l : ListId} {texts : List String} (span : Span)
    (h : ∀ held, (inspectItems l [] (s.items l).toList).Yields { s with held } fun _ o ↦
      o = .ok texts) :
    (ListRoutine.run .inspect ⟨.list l, [], none, span⟩).Yields s fun _ o ↦
      o = .ok (.str ("[" ++ ", ".intercalate texts ++ "]")) :=
  .reading (.keeping (lasting_eq _) _ (.reading (.bind_eq (h _) fun _ _ ↦ .pure rfl)))

theorem Task.Yields.list_inspected {s : State} {l : ListId} {texts : List String}
    (hs : s.types.showPlainly = true) (hroom : s.frames.size < s.config.maxCallDepth) (span : Span)
    (h : ∀ held frame, (ListRoutine.inspectItems l [] (s.items l).toList).Yields
      { s with held, frames := s.frames.push frame } fun _ o ↦ o = .ok texts) :
    (Task.send "inspect" ⟨.list l, [], none, span⟩).Yields s fun _ o ↦
      o = .ok (.str ("[" ++ ", ".intercalate texts ++ "]")) :=
  .offered (lasting_eq _) (offers_of_showPlainly (t := .list) hs (by decide)) rfl rfl rfl hroom
    fun _ frame ↦ ListRoutine.inspect_yields span fun held ↦ h held frame

theorem Scalar.inspect_yields (x : Scalar) (s : State) :
    (Eval.inspect (.ofLiteral x.literal)).Yields s fun _ o ↦ o = .ok x.text := by
  refine .reading ?_
  rw [x.inspectText_eq]
  exact .pure rfl

theorem Scalar.send_yields (x : Scalar) (span : Span) {s : State} (hs : s.types.showPlainly = true)
    (hroom : s.frames.size < s.config.maxCallDepth) :
    (Task.send "inspect" ⟨.ofLiteral x.literal, [], none, span⟩).Yields s fun _ o ↦
      o = .ok (.str x.text) := by
  have object (s : State) :
      (ObjectRoutine.run .inspect ⟨.ofLiteral x.literal, [], none, span⟩).Yields s fun _ o ↦
        o = .ok (.str x.text) := by
    refine .keeping (lasting_eq _) _ (.reading ?_)
    rw [x.inspectText_eq]
    exact .pure rfl
  have text (s : State) : (TextRoutine.run .inspect ⟨.ofLiteral x.literal, [], none, span⟩).Yields
      s fun _ o ↦ o = .ok (.str x.text) := by
    refine .reading ?_
    dsimp only
    rw [x.inspectText_eq]
    exact .pure rfl
  have hlasting := lasting_eq (.ok (Value.str x.text))
  have offers (t : CoreType) (ht : t ∈ _) := offers_of_showPlainly hs (t := t) ht
  cases x with
  | nil => exact .offered hlasting (offers .nil (by decide)) rfl rfl rfl hroom fun _ _ ↦ object _
  | bool b =>
    exact .offered hlasting (offers .bool (by decide)) rfl rfl rfl hroom fun _ _ ↦ object _
  | int n =>
    exact .offered hlasting (offers .int (by decide)) rfl rfl rfl hroom fun _ _ ↦ object _
  | symbol name =>
    exact .offered hlasting (offers .symbol (by decide)) rfl rfl rfl hroom fun _ _ ↦ text _
  | str t =>
    exact .offered hlasting (offers .string (by decide)) rfl rfl rfl hroom fun _ _ ↦ text _

theorem State.Holds.inspect_yields {s : State} {v : Value} {d : Datum} (h : s.Holds v d)
    (hsend : ∀ held, (Task.send "inspect" ⟨v, [], none, .origin⟩).Yields { s with held } fun _ o ↦
      o = .ok (.str d.text)) :
    (Eval.inspect v).Yields s fun _ o ↦ o = .ok d.text := by
  cases d with
  | scalar x =>
    obtain rfl : v = .ofLiteral x.literal := h
    exact x.inspect_yields s
  | list ds =>
    obtain ⟨l, items, rfl, -⟩ := h
    exact .reading (.bind_eq (.keeping (lasting_eq _) _ (.perform (hsend _))) fun _ _ ↦ .read rfl)

mutual

theorem Datum.send_yields : (d : Datum) → ∀ {s : State} {v : Value}, s.Holds v d →
    s.types.showPlainly = true → s.frames.size + d.depth < s.config.maxCallDepth → ∀ span,
      (Task.send "inspect" ⟨v, [], none, span⟩).Yields s fun _ o ↦ o = .ok (.str d.text)
  | .scalar x, s, _, rfl, hs, hroom, span => x.send_yields span hs hroom
  | .list ds, s, _, ⟨l, items, rfl, hitems, hall⟩, hs, hroom, span => by
    have hown := State.Holds.not_own_item hitems hall
    have hfound : s.items l = items := by rw [State.items, hitems, Option.getD_some]
    rw [Datum.depth] at hroom
    rw [Datum.text_list]
    refine .list_inspected hs (Nat.lt_of_le_of_lt (Nat.le_add_right _ _) hroom) span
      fun held frame ↦ ?_
    -- The items are shown one call deeper, and none of them as the list around it.
    have hkeeps : s.Keeps { s with held, frames := s.frames.push frame } := .of_eq rfl rfl
    have hcalled : (s.frames.push frame).size + depthOf ds < s.config.maxCallDepth := by
      rw [Array.size_push]
      omega
    rw [hfound]
    exact Datum.items_yield l ds [] (hall.lasts hkeeps) hown hs hcalled

theorem Datum.items_yield (l : ListId) : (ds : List Datum) → ∀ {s : State} {vs : List Value}
    (done : List String), s.HoldsAll vs ds → (∀ v ∈ vs, v.list? ≠ some l) →
      s.types.showPlainly = true → s.frames.size + Datum.depthOf ds < s.config.maxCallDepth →
        (ListRoutine.inspectItems l done vs).Yields s fun _ o ↦
          o = .ok (done.reverse ++ ds.map text)
  | [], s, [], done, _, _, _, _ => .pure (by rw [List.map_nil, List.append_nil])
  | d :: ds, s, v :: vs, done, ⟨hv, hvs⟩, hown, hs, hroom => by
    rw [Datum.depthOf] at hroom
    obtain ⟨hv_own, hvs_own⟩ := List.forall_mem_cons.mp hown
    have hitem : (Eval.holding vs (Eval.inspect v)).Yields s fun _ o ↦ o = .ok d.text := by
      have hheld (held : List Held) : State.Holds { s with held } v d :=
        have hkeeps : s.Keeps { s with held } := .of_eq rfl rfl
        hv.lasts hkeeps
      have hroom_d : s.frames.size + d.depth < s.config.maxCallDepth := by omega
      refine .keeping (lasting_eq _) _ ((hheld _).inspect_yields fun held ↦ ?_)
      exact d.send_yields (hheld held) hs hroom_d _
    rw [ListRoutine.inspectItems, if_neg hv_own]
    refine .bind_eq hitem fun s₁ hgrows ↦ ?_
    have hs₁ : s₁.types.showPlainly = true := by rw [hgrows.types, hs]
    have hroom₁ : s₁.frames.size + Datum.depthOf ds < s₁.config.maxCallDepth := by
      rw [hgrows.frames, hgrows.config]
      omega
    have hrest := Datum.items_yield l ds (d.text :: done) (hvs.lasts hgrows.toKeeps) hvs_own hs₁
      hroom₁
    rw [List.reverse_cons, List.append_assoc, List.singleton_append] at hrest
    exact hrest

end

/-- Wherever there is room for the calls, `inspect` gives the text of a datum. In a new interpreter
this text is a program that ends with the same datum. -/
theorem shown_is_read_back (d : Datum) :
    (∀ (s : State) (v : Value) (span : Span), s.types.showPlainly = true → s.Holds v d →
      s.frames.size + d.depth < s.config.maxCallDepth →
        ∃ s', (Task.send "inspect" ⟨v, [], none, span⟩).Gives s (.ok (.str d.text)) s' ∧
          s'.Holds v d) ∧
    ∃ i, (∃ least, ∀ fuel, least ≤ fuel → Interpreter.new .standard fuel = some (.ok i)) ∧
      i.state.Fresh ∧ ∃ w j,
        (∃ least, ∀ fuel, least ≤ fuel → i.runText d.text fuel = some (.ok w, j)) ∧
          j.state.Holds w d := by
  constructor
  · intro s v span hs hv hroom
    obtain ⟨_, s', hgives, hgrows, rfl⟩ := d.send_yields hv hs hroom span
    exact ⟨s', hgives, hv.lasts hgrows.toKeeps⟩
  · obtain ⟨i, hi, hnew⟩ := Interpreter.new_standard
    obtain ⟨e, span, hread, he⟩ := d.text_read
    have hlimit : i.rested.state.config.stepLimit = none := by
      rw [(Interpreter.fresh_rested hi).config]
      rfl
    obtain ⟨_, s, -, ⟨w, rfl, hw⟩, least, hrun⟩ :=
      Interpreter.run_yields (d.eval_yields State.topContext he hlimit) span
    have hkeeps : s.Keeps { s with frames := #[] } := .of_eq rfl rfl
    refine ⟨i, hnew, hi, w, ⟨{ s with frames := #[] }⟩, ⟨least, fun fuel hfuel ↦ ?_⟩,
      hw.lasts hkeeps⟩
    rw [Interpreter.runText, hread]
    exact hrun fuel hfuel (.ok w) ⟨s⟩ rfl

/-- `[[-1, "\n\"\\", :x?], [], nil]` -/
def nestedData : Datum :=
  .list [.list [.scalar (.int ⟨-1, by decide⟩), .scalar (.str ⟨"\n\"\\", by decide⟩),
    .scalar (.symbol ⟨"x?", _, rfl, rfl⟩)], .list [], .scalar .nil]

theorem nestedData_is_read_back : ∃ (s : State) (v : Value),
    s.types.showPlainly = true ∧ s.Holds v nestedData ∧
      s.frames.size + nestedData.depth < s.config.maxCallDepth ∧
      (∃ s', (Task.send "inspect" ⟨v, [], none, .origin⟩).Gives s
        (.ok (.str nestedData.text)) s' ∧ s'.Holds v nestedData) ∧
      ∃ i, (∃ least, ∀ fuel, least ≤ fuel → Interpreter.new .standard fuel = some (.ok i)) ∧
        i.state.Fresh ∧ ∃ w j,
          (∃ least, ∀ fuel, least ≤ fuel → i.runText nestedData.text fuel = some (.ok w, j)) ∧
            j.state.Holds w nestedData := by
  obtain ⟨i, hi, -⟩ := Interpreter.new_standard
  obtain ⟨s, hs, hconfig, hframes, hv⟩ : ∃ s : State, s.types.showPlainly = true ∧
      s.config = .standard ∧ s.frames = #[] ∧ s.Holds (.list ⟨2⟩) nestedData :=
    ⟨{ i.state with
        lists := #[#[.int (-1), .str "\n\"\\", .symbol "x?"], #[],
          #[.list ⟨0⟩, .list ⟨1⟩, .nil]],
        frames := #[] }, hi.shows, hi.config, rfl,
      ⟨_, _, rfl, rfl, ⟨_, _, rfl, rfl, rfl, rfl, rfl, trivial⟩, ⟨_, _, rfl, rfl, trivial⟩, rfl,
        trivial⟩⟩
  have hroom : s.frames.size + nestedData.depth < s.config.maxCallDepth := by
    rw [hframes, hconfig]
    decide
  exact ⟨s, .list ⟨2⟩, hs, hv, hroom, (shown_is_read_back nestedData).1 s _ .origin hs hv hroom,
    (shown_is_read_back nestedData).2⟩

example : nestedData.text = "[[-1, \"\\n\\\"\\\\\", :x?], [], nil]" := by decide +kernel

end Quill
