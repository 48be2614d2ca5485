import Quill.Proofs.Grammar.Parts
import Quill.Proofs.Grammar.Spelled

/-!
# From cursor to cursor

What a parser reads are the cells between the cursor before it and the cursor after it. Here is what
the parts are that lie between two cursors, and how spans are put together from spans on the way.
-/

namespace Quill.Grammar

namespace Cursor

/-- The first cursor stands before the cells and the second one after them. -/
structure Past (c : Cursor) (cells : List Cell) (c' : Cursor) : Prop where
  ordered : Ordered c.rest
  rest : c.rest = cells ++ c'.rest
  previous : c'.previous = (cells.getLast?.map Cell.span).getD c.previous

/-- The parts are spelled between the cursors. -/
def Lays (c : Cursor) (ps : List Part) (c' : Cursor) : Prop :=
  ∃ cells, c.Past cells c' ∧ Laid ps cells

def Spans (e : Ending) (c : Cursor) (s : Span) (c' : Cursor) : Prop :=
  ∃ cells, c.Past cells c' ∧ Frames e s cells

/-- Between the cursors are any cells or none, which end as said. -/
def Moves (e : Ending) (c c' : Cursor) : Prop :=
  ∃ cells, c.Past cells c' ∧ (e = .tight → ∀ z ∈ cells.getLast?, z.kind ≠ .newline)

/-- A single token at a span is between the cursors. -/
structure Takes (c : Cursor) (k : Token.Kind) (s : Span) (c' : Cursor) : Prop where
  lays : c.Lays [.token k] c'
  spans : c.Spans .tight s c'

variable {c c₁ c₂ c₃ c' : Cursor} {e e' : Ending} {s t : Span} {ps qs : List Part} {n : Node}

namespace Past

variable {cells more : List Cell}

theorem refl (h : Ordered c.rest) : c.Past [] c := ⟨h, rfl, rfl⟩

theorem ordered_after (h : c.Past cells c') : Ordered c'.rest :=
  (h.rest ▸ h.ordered : Ordered (cells ++ c'.rest)).right

theorem ordered_cells (h : c.Past cells c') : Ordered cells :=
  (h.rest ▸ h.ordered : Ordered (cells ++ c'.rest)).left

theorem trans (h : c.Past cells c₁) (h' : c₁.Past more c') : c.Past (cells ++ more) c' where
  ordered := h.ordered
  rest := by rw [h.rest, h'.rest, List.append_assoc]
  previous := by
    rw [h'.previous, h.previous, List.getLast?_append]
    cases more.getLast? <;> rfl

theorem unique (h : c.Past cells c') (h' : c.Past more c') : cells = more :=
  List.append_cancel_right (h.rest.symm.trans h'.rest)

theorem previous_eq (h : c.Past cells c') {z : Cell} (hz : cells.getLast? = some z) :
    c'.previous = z.span := by
  rw [h.previous, hz]
  rfl

end Past

theorem Moves.refl (h : Ordered c.rest) : c.Moves e c := ⟨[], .refl h, fun _ ↦ nofun⟩

theorem Moves.trans (h : c.Moves e c₁) (h' : c₁.Moves e c') : c.Moves e c' := by
  obtain ⟨cells, hpast, hlast⟩ := h
  obtain ⟨more, hpast', hlast'⟩ := h'
  refine ⟨cells ++ more, hpast.trans hpast', fun he z hz ↦ ?_⟩
  rw [List.getLast?_append] at hz
  cases hmore : more.getLast? with
  | none =>
    rw [hmore] at hz
    exact hlast he z hz
  | some y =>
    rw [hmore] at hz
    cases hz
    exact hlast' he _ hmore

namespace Spans

theorem ordered (h : c.Spans e s c') : Ordered c'.rest := by
  obtain ⟨cells, hpast, -⟩ := h
  exact hpast.ordered_after

theorem moves (h : c.Spans e s c') : c.Moves e c' := by
  obtain ⟨cells, hpast, hframes⟩ := h
  refine ⟨cells, hpast, fun he z hz ↦ ?_⟩
  obtain ⟨y, hy, -, htight⟩ := hframes.last
  obtain rfl := Option.some.inj (hy.symm.trans hz)
  exact htight he

theorem moves_after (h : c₁.Spans e s c') (hm : c.Moves e' c₁) : c.Moves e c' := by
  obtain ⟨cells, hpast, -⟩ := hm
  obtain ⟨more, hpast', hframes⟩ := h
  refine ⟨cells ++ more, hpast.trans hpast', fun he z hz ↦ ?_⟩
  obtain ⟨y, hy, -, htight⟩ := hframes.last
  rw [List.getLast?_append, hy] at hz
  cases hz
  exact htight he

theorem merge (h : c.Spans e s c₁) (hm : c₁.Moves .loose c₂) (h' : c₂.Spans e' t c') :
    c.Spans e' (s.merge t) c' := by
  obtain ⟨cells, hpast, hframes⟩ := h
  obtain ⟨between, hpast₁, -⟩ := hm
  obtain ⟨more, hpast₂, hframes'⟩ := h'
  have hwhole := (hpast.trans hpast₁).trans hpast₂
  have ho : Ordered (cells ++ more) := by
    refine hwhole.ordered_cells.sublist ?_
    exact (List.sublist_append_left cells between).append (.refl more)
  have hs := hframes.ordered ho.left
  have ht := hframes'.ordered ho.right
  have hst := (hframes.apart hframes' ho).1
  refine ⟨_, hwhole, ?_⟩
  rw [Span.merge_of_le (hs.trans hst) (hst.trans ht)]
  obtain ⟨a, ha, hfirst⟩ := hframes.first
  obtain ⟨z, hz, hlast⟩ := hframes'.last
  refine ⟨⟨a, ?_, hfirst⟩, ⟨z, ?_, hlast⟩⟩
  · rw [List.head?_append, List.head?_append, ha]
    rfl
  · rw [List.getLast?_append, hz]
    rfl

theorem merge_next (h : c.Spans e s c₁) (h' : c₁.Spans e' t c') : c.Spans e' (s.merge t) c' :=
  h.merge (.refl h.ordered) h'

theorem previous (h : c.Spans .tight s c₁) (hm : c₁.Moves e c') :
    c.Spans e (s.merge c'.previous) c' := by
  obtain ⟨cells, hpast, hframes⟩ := h
  obtain ⟨more, hpast', hend⟩ := hm
  obtain ⟨y, hy, hlast, htight⟩ := hframes.last
  obtain ⟨a, ha, hfirst⟩ := hframes.first
  have hwhole := hpast.trans hpast'
  obtain ⟨z, hz, hz'⟩ : ∃ z, (cells ++ more).getLast? = some z ∧
      (e = .tight → z.kind ≠ .newline) := by
    rw [List.getLast?_append]
    cases hmore : more.getLast? with
    | none => exact ⟨y, by rw [hy]; rfl, fun _ ↦ htight rfl⟩
    | some z => exact ⟨z, rfl, fun he ↦ hend he z hmore⟩
  have frames : Frames .loose ⟨s.first, z.span.last⟩ (cells ++ more) := by
    refine ⟨⟨a, ?_, hfirst⟩, ⟨z, hz, rfl, nofun⟩⟩
    rw [List.head?_append, ha]
    rfl
  have ho := hwhole.ordered_cells
  have hmem := List.mem_of_getLast? hz
  have hyz : s.last ≤ z.span.last := by
    rw [hlast]
    exact frames.le_last ho (List.mem_append_left _ (List.mem_of_getLast? hy))
  have hmerge : s.merge z.span = ⟨s.first, z.span.last⟩ :=
    Span.merge_of_le (frames.first_le ho hmem) hyz
  refine ⟨_, hwhole, ?_⟩
  rw [hwhole.previous_eq hz, hmerge]
  exact ⟨frames.first, ⟨z, hz, rfl, hz'⟩⟩

theorem start (h : c.Spans e s c') : c.Spans .loose c.span c.next ∧ c.next.Moves .loose c' := by
  obtain ⟨cells, hpast, hframes⟩ := h
  obtain ⟨a, rest, rfl⟩ := List.exists_cons_of_ne_nil hframes.ne_nil
  obtain ⟨_, previous, stop, limit⟩ := c
  obtain ⟨ho, rfl, hprevious⟩ := hpast
  have hnext : c'.previous = (rest.getLast?.map Cell.span).getD a.span := by
    rw [hprevious, List.getLast?_cons]
    cases rest.getLast? <;> rfl
  refine ⟨⟨[a], ⟨ho, rfl, rfl⟩, ⟨a, rfl, rfl⟩, ⟨a, rfl, rfl, nofun⟩⟩, rest, ⟨?_, rfl, hnext⟩, nofun⟩
  exact ho.sublist (List.sublist_cons_self _ _)

end Spans

namespace Lays

theorem refl (h : Ordered c.rest) : c.Lays [] c := ⟨[], .refl h, .nil⟩

theorem ordered (h : c.Lays ps c') : Ordered c'.rest := by
  obtain ⟨cells, hpast, -⟩ := h
  exact hpast.ordered_after

theorem moves (h : c.Lays ps c') : c.Moves .loose c' := by
  obtain ⟨cells, hpast, -⟩ := h
  exact ⟨cells, hpast, nofun⟩

end Lays

end Cursor

theorem Laid.append {ps qs : List Part} {cells more : List Cell} (h : Laid ps cells)
    (h' : Laid qs more) : Laid (ps ++ qs) (cells ++ more) := by
  induction h with
  | nil => exact h'
  | token _ ih => exact .token ih
  | definer hk _ ih => exact .definer hk ih
  | node hf hl hfr _ _ ih =>
    rw [List.append_assoc]
    exact .node hf hl hfr ih

theorem Laid.single {e : Ending} {n : Node} {cells : List Cell} (h : Laid [.node e n] cells) :
    Spelled e n cells := by
  generalize hps : [Part.node e n] = ps at h
  cases h with
  | nil => cases hps
  | token _ => cases hps
  | definer _ _ => cases hps
  | node hf hl hfr hmore =>
    cases hps
    cases hmore
    rw [List.append_nil]
    exact ⟨⟨_, hf, hl⟩, hfr⟩

namespace Cursor.Lays

variable {c c₁ c' : Cursor} {e : Ending} {ps qs : List Part} {n : Node}

theorem trans (h : c.Lays ps c₁) (h' : c₁.Lays qs c') : c.Lays (ps ++ qs) c' := by
  obtain ⟨cells, hpast, hlaid⟩ := h
  obtain ⟨more, hpast', hlaid'⟩ := h'
  exact ⟨cells ++ more, hpast.trans hpast', hlaid.append hlaid'⟩

theorem node (h : c.Lays ps c') (hf : Form e n ps) (hs : c.Spans e n.span c') :
    c.Lays [.node e n] c' := by
  obtain ⟨cells, hpast, hlaid⟩ := h
  obtain ⟨more, hpast', hframes⟩ := hs
  obtain rfl := hpast.unique hpast'
  refine ⟨cells, hpast, ?_⟩
  simpa using Laid.node hf hlaid hframes .nil

theorem spans (h : c.Lays [.node e n] c') : c.Spans e n.span c' := by
  obtain ⟨cells, hpast, hlaid⟩ := h
  exact ⟨cells, hpast, hlaid.single.frames⟩

theorem parts (h : c.Lays [.node e n] c') : ∃ ps, Form e n ps ∧ c.Lays ps c' := by
  obtain ⟨cells, hpast, hlaid⟩ := h
  obtain ⟨ps, hform, hlaid⟩ := hlaid.single.parts
  exact ⟨ps, hform, cells, hpast, hlaid⟩

end Cursor.Lays

/-- A token that is read for itself: not the end, and no line break. -/
structure Solid (k : Token.Kind) : Prop where
  eof : k ≠ .eof
  newline : k ≠ .newline

namespace Cursor

variable {c : Cursor}

theorem past_next (ho : Ordered c.rest) (hk : c.kind ≠ .eof) :
    ∃ t : Cell, t.kind = c.kind ∧ t.span = c.span ∧ c.Past [t] c.next := by
  obtain ⟨rest, previous, stop, limit⟩ := c
  cases rest with
  | nil => exact absurd rfl hk
  | cons t rest => exact ⟨t, rfl, rfl, ho, rfl, rfl⟩

theorem takes {k : Token.Kind} (ho : Ordered c.rest) (hk : c.kind = k) (hs : Solid k) :
    c.Takes k c.span c.next := by
  obtain ⟨t, hkind, hspan, hpast⟩ := past_next ho (hk ▸ hs.eof)
  obtain rfl := hkind.trans hk
  rw [← hspan]
  exact ⟨⟨_, hpast, .token .nil⟩, _, hpast, ⟨t, rfl, rfl⟩, ⟨t, rfl, rfl, fun _ ↦ hs.newline⟩⟩

theorem lays_definer {k : Keyword} (ho : Ordered c.rest) (hk : c.kind = .keyword k) :
    c.Lays [.definer k c.doc] c.next := by
  obtain ⟨rest, previous, stop, limit⟩ := c
  cases rest with
  | nil => cases hk
  | cons t rest => exact ⟨[t], ⟨ho, rfl, rfl⟩, .definer hk .nil⟩

theorem Takes.ordered {k : Token.Kind} {s : Span} {c' : Cursor} (h : c.Takes k s c') :
    Ordered c'.rest := h.lays.ordered

theorem Takes.ident {i : Ident} {c' : Cursor} (h : c.Takes (.identifier i.name) i.span c') :
    c.Lays [.ident i] c' := h.lays.node .identifier h.spans

theorem Skips.lays {skips : Token.Kind → Prop} {c' : Cursor} (h : c.Skips skips c')
    (ho : Ordered c.rest) (heof : ¬ skips .eof) :
    ∃ ks : List Token.Kind, (∀ k ∈ ks, skips k) ∧ c.Lays (ks.map .token) c' := by
  induction h with
  | stop => exact ⟨[], List.forall_mem_nil _, .refl ho⟩
  | @next c c' hk _ ih =>
    obtain ⟨t, hkind, -, hpast⟩ := past_next ho fun h ↦ heof (h ▸ hk)
    obtain ⟨ks, hks, hlays⟩ := ih hpast.ordered_after
    refine ⟨c.kind :: ks, List.forall_mem_cons.mpr ⟨hk, hks⟩, ?_⟩
    have hlaid : Laid [.token t.kind] [t] := .token .nil
    rw [hkind] at hlaid
    exact Lays.trans ⟨[t], hpast, hlaid⟩ hlays

theorem lays_skipNewlines (ho : Ordered c.rest) :
    ∃ ns, Newlines ns ∧ c.Lays ns c.skipNewlines := by
  obtain ⟨ks, hks, hlays⟩ := c.skipNewlines_skips.lays ho nofun
  refine ⟨_, fun p hp ↦ ?_, hlays⟩
  obtain ⟨k, hk, rfl⟩ := List.mem_map.mp hp
  exact congrArg Part.token (hks k hk)

theorem lays_skipSeparators (ho : Ordered c.rest) :
    ∃ ps, Separators ps ∧ c.Lays ps c.skipSeparators ∧
      isSeparator c.skipSeparators.kind = false ∧ (ps = [] → c.skipSeparators.kind = c.kind) := by
  obtain ⟨ks, hks, hlays⟩ := c.skipSeparators_skips.lays ho nofun
  refine ⟨_, fun p hp ↦ ?_, hlays, Bool.eq_false_iff.mpr c.skipSeparators_skips.not_kind, ?_⟩
  · obtain ⟨k, hk, rfl⟩ := List.mem_map.mp hp
    exact ⟨k, rfl, hks k hk⟩
  · intro hnil
    obtain ⟨cells, hpast, hlaid⟩ := hlays
    rw [hnil] at hlaid
    cases hlaid
    rw [Cursor.kind, Cursor.kind, hpast.rest]
    rfl

end Cursor

namespace Parse

variable {α β : Type} {c : Cursor} {P Q : α → Cursor → Prop} {R : β → Cursor → Prop}

/-- If the parser succeeds, its result and the cursor after it are as `Q` says. -/
def Gives (c : Cursor) (x : Parse α) (Q : α → Cursor → Prop) : Prop :=
  ∀ a c', x c = .ok (a, c') → Q a c'

namespace Gives

theorem pure {a : α} (h : Q a c) : Gives c (Pure.pure a) Q := by
  rintro _ _ ⟨⟩
  exact h

theorem failAt {expected : Expected} {found : Found} {span : Span} :
    Gives c (Parse.failAt expected found span) Q := nofun

theorem unexpected {expected : Expected} : Gives c (Parse.unexpected expected) Q := nofun

theorem mono {x : Parse α} (h : Gives c x P) (hq : ∀ a c', P a c' → Q a c') : Gives c x Q :=
  fun a c' hx ↦ hq a c' (h a c' hx)

theorem bind {x : Parse α} {f : α → Parse β} (hx : Gives c x P)
    (hf : ∀ a c', P a c' → Gives c' (f a) R) : Gives c (x >>= f) R := by
  intro b c'' h
  change (x c >>= fun p ↦ f p.1 p.2) = _ at h
  cases hr : x c with
  | error e =>
    rw [hr] at h
    cases h
  | ok p =>
    rw [hr] at h
    exact hf p.1 p.2 (hx p.1 p.2 hr) b c'' h

theorem bind_any {x : Parse α} {f : α → Parse β} (hf : ∀ a c', Gives c' (f a) R) :
    Gives c (x >>= f) R :=
  bind (P := fun _ _ ↦ True) (fun _ _ _ ↦ trivial) fun a c' _ ↦ hf a c'

theorem get {f : Cursor → Parse β} (h : Gives c (f c) R) : Gives c (get >>= f) R := h

theorem kind {f : Token.Kind → Parse β} (h : Gives c (f c.kind) R) : Gives c (kind >>= f) R := h

theorem span {f : Span → Parse β} (h : Gives c (f c.span) R) : Gives c (span >>= f) R := h

theorem previous {f : Span → Parse β} (h : Gives c (f c.previous) R) :
    Gives c (previous >>= f) R := h

theorem advance {f : Span → Parse β} (h : Gives c.next (f c.span) R) :
    Gives c (advance >>= f) R := h

theorem skipNewlines {f : Unit → Parse β} (h : Gives c.skipNewlines (f ()) R) :
    Gives c (skipNewlines >>= f) R := h

theorem skipSeparators {f : Unit → Parse β} (h : Gives c.skipSeparators (f ()) R) :
    Gives c (skipSeparators >>= f) R := h

theorem ite {b : Bool} {x y : Parse α} (hx : b = true → Gives c x Q)
    (hy : b = false → Gives c y Q) : Gives c (if b = true then x else y) Q := by
  cases b with
  | true => exact hx rfl
  | false => exact hy rfl

theorem sees {m : Mark} {f : Bool → Parse β} (h : Gives c (f (c.kind == .mark m)) R) :
    Gives c (Parse.atMark m >>= f) R := h

theorem atMark {m : Mark} {x y : Parse β} (hx : c.kind = .mark m → Gives c x R)
    (hy : Gives c y R) : Gives c (Parse.atMark m >>= fun b ↦ if b = true then x else y) R :=
  sees (ite (fun h ↦ hx (eq_of_beq_mark h)) fun _ ↦ hy)

theorem atKeyword {w : Keyword} {x y : Parse β} (hx : c.kind = .keyword w → Gives c x R)
    (hy : Gives c y R) : Gives c (Parse.atKeyword w >>= fun b ↦ if b = true then x else y) R := by
  have h : Gives c (if (c.kind == .keyword w) = true then x else y) R :=
    ite (fun h ↦ hx (eq_of_beq_keyword h)) fun _ ↦ hy
  exact h

theorem eat {k : Token.Kind} {x y : Parse β} (hx : (c.kind == k) = true → Gives c.next x R)
    (hy : (c.kind == k) = false → Gives c y R) :
    Gives c (Parse.eat k >>= fun b ↦ if b = true then x else y) R := by
  refine bind (P := fun b c' ↦ b = (c.kind == k) ∧ c' = if b = true then c.next else c)
    (fun b c' h ↦ ?_) ?_
  · unfold Parse.eat at h
    split at h <;> cases h <;> simp_all
  · rintro b c' ⟨hb, rfl⟩
    cases b with
    | true => exact hx hb.symm
    | false => exact hy hb.symm

theorem eatMark {m : Mark} {x y : Parse β} (hx : c.kind = .mark m → Gives c.next x R)
    (hy : Gives c y R) : Gives c (Parse.eatMark m >>= fun b ↦ if b = true then x else y) R :=
  eat (fun h ↦ hx (eq_of_beq_mark h)) fun _ ↦ hy

theorem eatKeyword {w : Keyword} {x y : Parse β} (hx : c.kind = .keyword w → Gives c.next x R)
    (hy : Gives c y R) : Gives c (Parse.eatKeyword w >>= fun b ↦ if b = true then x else y) R :=
  eat (fun h ↦ hx (eq_of_beq_keyword h)) fun _ ↦ hy

theorem repeatUpTo {I : α → Cursor → Prop} {step : α → Parse (α ⊕ β)}
    (h : ∀ a c, I a c → Gives c (step a) fun r c' ↦ Sum.elim (I · c') (R · c') r) (n : Nat)
    {a : α} (ha : I a c) : Gives c (Parse.repeatUpTo step n a) R := by
  induction n generalizing a c with
  | zero => exact unexpected
  | succ n ih =>
    refine bind (h a c ha) fun r c' hr ↦ ?_
    cases r with
    | inl a => exact ih hr
    | inr b => exact pure hr

theorem iterate (I : α → Cursor → Prop) {step : α → Parse (α ⊕ β)}
    (h : ∀ a c, I a c → Gives c (step a) fun r c' ↦ Sum.elim (I · c') (R · c') r) {a : α}
    (ha : I a c) : Gives c (Parse.iterate step a) R :=
  get (repeatUpTo h _ ha)

end Gives

end Parse

open Parse

variable {c : Cursor}

theorem expect_gives (m : Mark) (ho : Ordered c.rest) :
    Gives c (expect m) (c.Takes (.mark m)) := by
  refine .kind (.ite (fun hk ↦ ?_) fun _ ↦ .unexpected)
  rintro _ _ ⟨⟩
  exact c.takes ho (eq_of_beq_mark hk) ⟨nofun, nofun⟩

theorem endOf_gives (construct : Keyword) (ho : Ordered c.rest) :
    Gives c (endOf construct) (c.Takes (.keyword .end_)) := by
  refine .atKeyword (fun hk ↦ ?_) .unexpected
  rintro _ _ ⟨⟩
  exact c.takes ho hk ⟨nofun, nofun⟩

theorem separator_gives (ho : Ordered c.rest) :
    Gives c separator fun _ c' ↦ ∃ ps, Break ps ∧ c.Lays ps c' := by
  refine .kind (.ite (fun hk ↦ ?_) fun _ ↦ .unexpected)
  rintro _ _ ⟨⟩
  obtain ⟨ps, hps, hlays, hkind, hstay⟩ := c.lays_skipSeparators ho
  refine ⟨ps, ⟨hps, fun h ↦ ?_⟩, hlays⟩
  rw [hstay h, hk] at hkind
  cases hkind

theorem identifier_gives (ho : Ordered c.rest) :
    Gives c identifier fun i c' ↦ c.Takes (.identifier i.name) i.span c' := by
  refine .kind ?_
  split
  · rename_i name hk
    rintro _ _ ⟨⟩
    exact c.takes ho hk ⟨nofun, nofun⟩
  · exact .unexpected

theorem constantName_gives (ho : Ordered c.rest) :
    Gives c constantName fun i c' ↦ c.Lays [.ident i] c' := by
  refine .kind ?_
  split
  · rename_i name hk
    rintro _ _ ⟨⟩
    have htakes := c.takes ho hk ⟨nofun, nofun⟩
    exact htakes.lays.node .constantName htakes.spans
  · exact .unexpected

end Quill.Grammar
