import Mathlib.Data.List.Forall2
import Quill.Proofs.Answering
import Quill.Proofs.Comparing

/-!
# Equality of data

Values that are finite trees of lists over scalars without fractions are equal if they have the same
content. Main statement: `equality_structural`.
-/

namespace Quill

open Eval

/-- A scalar without a fraction. -/
inductive Leaf where
  | nil
  | bool (b : Bool)
  | int (n : Int64)
  | str (text : String)
  | symbol (name : String)
  deriving DecidableEq

def Leaf.value : Leaf → Value
  | nil => .nil
  | bool b => .bool b
  | int n => .int n
  | str text => .str text
  | symbol name => .symbol name

/-- What there is in a value that is a finite tree of lists. -/
inductive Content where
  | leaf (a : Leaf)
  | list (items : List Content)

namespace Leaf

theorem isScalar_value (a : Leaf) : a.value.isScalar = true := by cases a <;> rfl

theorem value_ne_list (a : Leaf) (l : ListId) : a.value ≠ .list l := by cases a <;> nofun

theorem scalarEq?_value (a b : Leaf) : a.value.scalarEq? b.value = some (decide (a = b)) := by
  cases a <;> cases b <;> simp [value, Value.scalarEq?, Value.isScalar, Bool.beq_eq_decide_eq]

theorem value_inj {a b : Leaf} (h : a.value = b.value) : a = b := by
  have hboth := a.scalarEq?_value b
  rw [h, scalarEq?_value] at hboth
  simpa using hboth

end Leaf

namespace Content

mutual

def depth : Content → Nat
  | leaf _ => 0
  | list cs => depthOf cs + 1

def depthOf : List Content → Nat
  | [] => 0
  | c :: cs => max c.depth (depthOf cs)

end

mutual

/-- As these lists are, that is what there is in the value. -/
def In (lists : Array (Array Value)) (v : Value) : Content → Prop
  | leaf a => v = a.value
  | list cs => ∃ (l : ListId) (items : Array Value), v = .list l ∧ lists[l.index]? = some items ∧
    AllIn lists items.toList cs

def AllIn (lists : Array (Array Value)) : List Value → List Content → Prop
  | [], [] => True
  | v :: vs, c :: cs => In lists v c ∧ AllIn lists vs cs
  | _, _ => False

end

variable {lists : Array (Array Value)}

mutual

theorem In.unique : (c d : Content) → ∀ {v}, c.In lists v → d.In lists v → c = d
  | leaf _, leaf _, _, h, h' => congrArg leaf (Leaf.value_inj (h.symm.trans h'))
  | leaf a, list _, _, h, ⟨l, _, h', _⟩ => absurd (h.symm.trans h') (a.value_ne_list l)
  | list _, leaf a, _, ⟨l, _, h', _⟩, h => absurd (h.symm.trans h') (a.value_ne_list l)
  | list cs, list ds, _, ⟨l, items, hv, hitems, hall⟩, ⟨l', items', hv', hitems', hall'⟩ => by
    cases hv.symm.trans hv'
    cases hitems.symm.trans hitems'
    exact congrArg list (AllIn.unique cs ds hall hall')

theorem AllIn.unique : (cs ds : List Content) → ∀ {vs}, AllIn lists vs cs → AllIn lists vs ds →
    cs = ds
  | [], [], _, _, _ => rfl
  | c :: cs, d :: ds, _ :: _, ⟨h, hall⟩, ⟨h', hall'⟩ =>
    congrArg₂ List.cons (In.unique c d h h') (AllIn.unique cs ds hall hall')
  | [], _ :: _, [], _, h => h.elim
  | [], _ :: _, _ :: _, h, _ => h.elim
  | _ :: _, [], [], h, _ => h.elim
  | _ :: _, [], _ :: _, _, h => h.elim

end

theorem allIn_iff_forall₂ {vs : List Value} {cs : List Content} :
    AllIn lists vs cs ↔ List.Forall₂ (fun v c ↦ c.In lists v) vs cs := by
  induction vs generalizing cs with
  | nil =>
    cases cs with
    | nil => exact ⟨fun _ ↦ .nil, fun _ ↦ trivial⟩
    | cons => exact ⟨False.elim, nofun⟩
  | cons v vs ih =>
    cases cs with
    | nil => exact ⟨False.elim, nofun⟩
    | cons c cs => exact (and_congr_right' ih).trans List.forall₂_cons.symm

theorem AllIn.length_eq {vs : List Value} {cs : List Content} (h : AllIn lists vs cs) :
    vs.length = cs.length := (allIn_iff_forall₂.mp h).length_eq

mutual

theorem In.lasts {s s' : State} (hs : s.Keeps s') : (c : Content) → ∀ {v}, c.In s.lists v →
    c.In s'.lists v
  | leaf _, _, h => h
  | list cs, _, ⟨l, items, hv, hitems, hall⟩ =>
    ⟨l, items, hv, hs.lists _ _ hitems, AllIn.lasts hs cs hall⟩

theorem AllIn.lasts {s s' : State} (hs : s.Keeps s') : (cs : List Content) → ∀ {vs},
    AllIn s.lists vs cs → AllIn s'.lists vs cs
  | [], [], _ => trivial
  | c :: cs, _ :: _, ⟨h, hall⟩ => ⟨In.lasts hs c h, AllIn.lasts hs cs hall⟩

end

end Content

theorem Eval.valuesEqual_tells {s : State} {p : Prop} {v w : Value}
    (hundecided : v.scalarEq? w = none)
    (h : ∀ held, (send v "==" [w] none .origin).Answers { s with held } p) :
    (valuesEqual v w).Tells s p := by
  obtain ⟨b, hgives, hb⟩ := h (⟨[v, w], none⟩ :: s.held)
  have hequal := valuesEqual_of_ask (s := s) hundecided hgives.keeping
  have htruthy : (Value.bool b).isTruthy = b := by cases b <;> rfl
  rw [htruthy] at hequal
  exact ⟨b, hequal, hb⟩

theorem Eval.Answers.gives_iff {x : Eval Value} {s : State} {p : Prop} {b : Bool}
    (h : x.Answers s p) : x.Gives s (.ok (.bool b)) s ↔ (b = true ↔ p) := by
  obtain ⟨b', hgives, hb'⟩ := h
  constructor
  · intro hgives'
    cases (hgives.unique hgives').1
    exact hb'
  · intro hb
    have heq : b = b' := Bool.eq_iff_iff.mpr (hb.trans hb'.symm)
    exact heq ▸ hgives

namespace Routine

def listEqual : Entry := fixed .list .list "==" [.any] (.list .equal)

def notEqual : Entry := fixed .object .any "!=" [.any] (.object .notEqual)

end Routine

/-- Messages `==` to scalars and lists find what they find from the start. -/
def Types.EqualsInstalled (ts : Types) : Prop :=
  ts.FindsInstalled "==" (.list :: CoreType.scalars)

namespace Types.EqualsInstalled

variable {s : State} {l : ListId} {w : Value} {span : Span}

theorem scalars (h : s.types.EqualsInstalled) : s.ComparesAsInstalled := by
  intro t ht
  unfold soleNative?
  rw [h t (List.mem_cons_of_mem _ ht)]

theorem list (h : s.types.EqualsInstalled) : s.types.offers .list Routine.listEqual = true :=
  FindsInstalled.offers (e := Routine.listEqual) h List.mem_cons_self (by decide +kernel)

end Types.EqualsInstalled

section

variable {s : State} {v w : Value} {vs ws : List Value} {c d : Content} {cs ds : List Content}

/-- What there is in a value, which can be compared before calls are nested too deep. -/
structure Content.Fits (c : Content) (s : State) (v : Value) : Prop where
  content : c.In s.lists v
  room : s.frames.size + c.depth ≤ s.config.maxCallDepth

namespace Content

theorem In.items (hc : (list cs).In s.lists v) :
    ∃ l, v = .list l ∧ AllIn s.lists (s.items l).toList cs := by
  obtain ⟨l, items, rfl, hitems, hall⟩ := hc
  exact ⟨l, rfl, by rwa [State.items, hitems]⟩

theorem Fits.called (hc : (list cs).Fits s v) (frame : CallFrame) :
    (s.frames.push frame).size + depthOf cs ≤ s.config.maxCallDepth := by
  have hroom := hc.room
  rw [depth] at hroom
  rw [Array.size_push]
  omega

theorem valuesEqual_fits (hc : c.Fits s v) (hd : d.Fits s w)
    (h : ∀ held, s.frames.size < s.config.maxCallDepth →
      (send v "==" [w] none .origin).Answers { s with held } (c = d)) :
    (valuesEqual v w).Tells s (c = d) := by
  have hcases : (∃ a b, c = leaf a ∧ d = leaf b) ∨
      v.scalarEq? w = none ∧ s.frames.size < s.config.maxCallDepth := by
    cases c with
    | leaf a =>
      cases d with
      | leaf b => exact .inl ⟨a, b, rfl, rfl⟩
      | list ds =>
        obtain ⟨m, -, rfl, -⟩ := hd.content
        have hroom := hd.room
        rw [depth] at hroom
        exact .inr ⟨Value.scalarEq?_eq_none.mpr (.inr rfl), by omega⟩
    | list cs =>
      obtain ⟨l, -, rfl, -⟩ := hc.content
      have hroom := hc.room
      rw [depth] at hroom
      exact .inr ⟨Value.scalarEq?_eq_none.mpr (.inl rfl), by omega⟩
  obtain ⟨a, b, rfl, rfl⟩ | ⟨hundecided, hroom⟩ := hcases
  · obtain rfl : v = a.value := hc.content
    obtain rfl : w = b.value := hd.content
    unfold valuesEqual
    rw [Leaf.scalarEq?_value]
    exact .pure (by simp)
  · exact valuesEqual_tells hundecided fun held ↦ h held hroom

theorem send_leaf (hs : s.types.EqualsInstalled) (a : Leaf) (hd : d.In s.lists w)
    (hroom : s.frames.size < s.config.maxCallDepth) (span : Span) :
    (send a.value "==" [w] none span).Answers s (leaf a = d) := by
  refine ⟨_, send_scalar hs.scalars a.isScalar_value hroom, ?_⟩
  cases d with
  | leaf b =>
    obtain rfl : w = b.value := hd
    simp [Value.plainlyEqual, Leaf.scalarEq?_value]
  | list ds =>
    obtain ⟨m, -, rfl, -⟩ := hd
    have hundecided : a.value.scalarEq? (.list m) = none := Value.scalarEq?_eq_none.mpr (.inr rfl)
    simp [Value.plainlyEqual, hundecided]

theorem send_list (hs : s.types.EqualsInstalled) (hc : (list cs).In s.lists v) (hd : d.In s.lists w)
    (hroom : s.frames.size < s.config.maxCallDepth)
    (h : ∀ ds vs ws held frame, d = list ds → AllIn s.lists vs cs → AllIn s.lists ws ds →
      cs.length = ds.length →
      (ListRoutine.equalItems vs ws).Tells { s with held, frames := s.frames.push frame } (cs = ds))
    (span : Span) : (send v "==" [w] none span).Answers s (list cs = d) := by
  obtain ⟨l, rfl, hcs⟩ := hc.items
  refine Answers.offered (v := .list l) hs.list rfl rfl rfl hroom fun held frame ↦ ?_
  change (ListRoutine.equal.run ⟨.list l, [w], none, span⟩).Answers _ _
  refine ListRoutine.answers_of_runOn (by decide) rfl (fun _ ↦ rfl) rfl ?_
  cases d with
  | leaf b =>
    obtain rfl : w = b.value := hd
    cases b <;> exact .pure (by simp)
  | list ds =>
    obtain ⟨m, rfl, hds⟩ := hd.items
    -- A list is equal to itself without its items being compared.
    change Answers (if l = m then _ else _) _ _
    split
    · rename_i heq
      subst heq
      exact .pure (by simp [AllIn.unique cs ds hcs hds])
    · refine .reading ?_
      dsimp only
      rw [list.injEq]
      split
      · rename_i hlength
        have hsame : cs.length = ds.length := by
          rw [← hcs.length_eq, ← hds.length_eq]
          exact hlength
        exact (Tells.holding (.holding (h ds _ _ _ frame rfl hcs hds hsame))).answers
      · rename_i hlength
        refine .pure ?_
        simp only [Bool.false_eq_true, false_iff]
        rintro rfl
        exact hlength (hcs.length_eq.trans hds.length_eq.symm)

-- By induction on what there is in the value that is asked. A message to a list compares the items
-- in a call of its own, so the state is not the same.
mutual

theorem send_equal : (c : Content) → ∀ {s : State} {v w : Value} {d : Content},
    s.types.EqualsInstalled → c.Fits s v → d.Fits s w → s.frames.size < s.config.maxCallDepth →
    ∀ span, (send v "==" [w] none span).Answers s (c = d)
  | leaf a, s, v, w, d, hs, hc, hd, hroom, span => by
    obtain rfl : v = a.value := hc.content
    exact send_leaf hs a hd.content hroom span
  | list cs, s, v, w, d, hs, hc, hd, hroom, span => by
    refine send_list hs hc.content hd.content hroom (fun ds vs ws held frame hds hvs hws hsame ↦ ?_)
      span
    subst hds
    exact equalItems_tells cs (s := { s with held, frames := s.frames.push frame }) hs hvs hws hsame
      (hc.called frame) (hd.called frame)

theorem equalItems_tells : (cs : List Content) → ∀ {s : State} {vs ws : List Value}
    {ds : List Content}, s.types.EqualsInstalled → AllIn s.lists vs cs → AllIn s.lists ws ds →
    cs.length = ds.length → s.frames.size + depthOf cs ≤ s.config.maxCallDepth →
    s.frames.size + depthOf ds ≤ s.config.maxCallDepth →
    (ListRoutine.equalItems vs ws).Tells s (cs = ds)
  | [], s, [], ws, ds, hs, hvs, hws, hsame, hcs, hds => by
    obtain rfl := List.eq_nil_of_length_eq_zero hsame.symm
    exact .pure (by simp)
  | c :: cs, s, v :: vs, ws, ds, hs, hvs, hws, hsame, hcs, hds => by
    cases ds with
    | nil => cases hsame
    | cons d ds =>
      cases ws with
      | nil => exact hws.elim
      | cons w ws =>
        rw [depthOf] at hcs hds
        have hfirst : c.Fits s v := ⟨hvs.1, by omega⟩
        have hfirst' : d.Fits s w := ⟨hws.1, by omega⟩
        have hitem : (valuesEqual v w).Tells s (c = d) :=
          valuesEqual_fits hfirst hfirst' fun held hroom ↦
            send_equal c (s := { s with held }) hs ⟨hfirst.content, hfirst.room⟩
              ⟨hfirst'.content, hfirst'.room⟩ hroom _
        have hrest : (ListRoutine.equalItems vs ws).Tells s (cs = ds) :=
          equalItems_tells cs hs hvs.2 hws.2 (Nat.succ.inj hsame) (by omega) (by omega)
        exact (hitem.ite (r := False) (fun _ ↦ hrest) fun _ ↦ .pure (by simp)).congr (by simp)

end

theorem In.kind (hc : c.In s.lists v) :
    ∃ t ∈ .list :: CoreType.scalars, s.typeOf v = t.id ∧ v.type? = none := by
  cases c with
  | leaf a =>
    obtain rfl : v = a.value := hc
    cases a with
    | nil => exact ⟨.nil, by decide, rfl, rfl⟩
    | bool b => exact ⟨.bool, by decide, rfl, rfl⟩
    | int n => exact ⟨.int, by decide, rfl, rfl⟩
    | str text => exact ⟨.string, by decide, rfl, rfl⟩
    | symbol name => exact ⟨.symbol, by decide, rfl, rfl⟩
  | list cs =>
    obtain ⟨l, -, rfl, -⟩ := hc
    exact ⟨.list, by decide, rfl, rfl⟩

theorem send_notEqual (hs : s.types.EqualsInstalled)
    (hnot : s.types.FindsInstalled "!=" (.list :: CoreType.scalars)) (hc : c.In s.lists v)
    (hd : d.In s.lists w) (hroom : s.frames.size + 1 < s.config.maxCallDepth)
    (hdepth : s.frames.size + 1 + max c.depth d.depth ≤ s.config.maxCallDepth) (span : Span) :
    (send v "!=" [w] none span).Answers s (c ≠ d) := by
  obtain ⟨t, ht, htype, hv⟩ := hc.kind
  have hstandard : ∀ t ∈ .list :: CoreType.scalars,
      Types.standard.offers t Routine.notEqual = true := by
    decide +kernel
  refine Answers.offered (hnot.offers ht (hstandard t ht)) htype hv rfl (by omega)
    fun held frame ↦ ?_
  have hsize : (s.frames.push frame).size = s.frames.size + 1 := Array.size_push frame
  refine .negated (.holding (send_equal c (d := d) (s := { s with
    held := ⟨[], none⟩ :: held, frames := s.frames.push frame }) hs ⟨hc, ?_⟩ ⟨hd, ?_⟩ ?_ span))
  · dsimp only
    omega
  · dsimp only
    omega
  · dsimp only
    omega

end Content

/-- Whatever data two values are, comparing them has no error and no effect. They are equal if they
have the same shape and equal scalars of the same kind in the same places. So equality is reflexive,
symmetric and transitive, and `!=` is its negation, both as an operator and as a message. -/
theorem equality_structural {u : Value} {e : Content} (hs : s.types.EqualsInstalled)
    (hroom : s.frames.size < s.config.maxCallDepth) (hv : c.Fits s v) (hw : d.Fits s w)
    (hu : e.Fits s u) (span : Span) :
    (send v "==" [w] none span).Answers s (c = d) ∧
    (send v "==" [v] none span).Gives s (.ok (.bool true)) s ∧
    (∀ b, (send v "==" [w] none span).Gives s (.ok (.bool b)) s →
      (send w "==" [v] none span).Gives s (.ok (.bool b)) s) ∧
    ((send v "==" [w] none span).Gives s (.ok (.bool true)) s →
      (send w "==" [u] none span).Gives s (.ok (.bool true)) s →
      (send v "==" [u] none span).Gives s (.ok (.bool true)) s) ∧
    (∀ l r ctx s₀ s₁, (eval l ctx).Gives s₀ (.ok v) s₁ →
      (holding [v] (eval r ctx)).Gives s₁ (.ok w) s →
      ∃ b, (binary .eq l r ctx span).Gives s₀ (.ok (.bool b)) s ∧
        (binary .notEq l r ctx span).Gives s₀ (.ok (.bool (!b))) s ∧ (b = true ↔ c = d)) ∧
    (s.types.FindsInstalled "!=" (.list :: CoreType.scalars) →
      s.frames.size + 1 < s.config.maxCallDepth →
      s.frames.size + 1 + max c.depth d.depth ≤ s.config.maxCallDepth →
      (send v "!=" [w] none span).Answers s (c ≠ d)) := by
  have hequal {v w : Value} {c d : Content} (hc : c.Fits s v) (hd : d.Fits s w) :=
    Content.send_equal c hs hc hd hroom span
  refine ⟨hequal hv hw, (hequal hv hv).gives_iff.mpr (by simp), fun b hb ↦ ?_, fun hvw hwu ↦ ?_,
    fun l r ctx s₀ s₁ hl hr ↦ ?_, fun hnot hframes hdepth ↦
      Content.send_notEqual hs hnot hv.content hw.content hframes hdepth span⟩
  · exact (hequal hw hv).gives_iff.mpr (((hequal hv hw).gives_iff.mp hb).trans eq_comm)
  · have hcd : c = d := ((hequal hv hw).gives_iff.mp hvw).mp rfl
    have hde : d = e := ((hequal hw hu).gives_iff.mp hwu).mp rfl
    exact (hequal hv hu).gives_iff.mpr (by simp [hcd, hde])
  · obtain ⟨b, hgives, hb⟩ := hequal hv hw
    refine ⟨b, hl.bind (hr.bind (hgives.bind (.pure _ s))), hl.bind (hr.bind (hgives.bind ?_)), hb⟩
    cases b <;> exact .pure _ s

/-- Two lists of the same shape are equal, but a list of a list is no list of an integer. -/
theorem equality_of_nested :
    let s : State := { State.initial .standard with
      lists := #[#[.int 1, .list ⟨1⟩], #[.nil], #[.int 1, .list ⟨1⟩], #[.int 1, .int 1]] }
    (send (.list ⟨0⟩) "==" [.list ⟨2⟩] none .origin).Gives s (.ok (.bool true)) s ∧
      (send (.list ⟨0⟩) "==" [.list ⟨3⟩] none .origin).Gives s (.ok (.bool false)) s ∧
      (send (.list ⟨0⟩) "!=" [.list ⟨3⟩] none .origin).Gives s (.ok (.bool true)) s := by
  intro s
  have hreached : s.Reached := .host (.initial .standard) rfl
  have hs : s.types.EqualsInstalled := hreached.findsInstalled (by decide +kernel) _
  have hnot : s.types.FindsInstalled "!=" (.list :: CoreType.scalars) :=
    hreached.findsInstalled (by decide +kernel) _
  have hpair (l : ListId) (hl : l = ⟨0⟩ ∨ l = ⟨2⟩) :
      (Content.list [.leaf (.int 1), .list [.leaf .nil]]).Fits s (.list l) := by
    obtain rfl | rfl := hl
    · exact ⟨⟨⟨0⟩, _, rfl, rfl, rfl, ⟨⟨1⟩, _, rfl, rfl, rfl, trivial⟩, trivial⟩, by decide⟩
    · exact ⟨⟨⟨2⟩, _, rfl, rfl, rfl, ⟨⟨1⟩, _, rfl, rfl, rfl, trivial⟩, trivial⟩, by decide⟩
  have hflat : (Content.list [.leaf (.int 1), .leaf (.int 1)]).Fits s (.list ⟨3⟩) :=
    ⟨⟨⟨3⟩, _, rfl, rfl, rfl, rfl, trivial⟩, by decide⟩
  have hsame := equality_structural hs (by decide) (hpair ⟨0⟩ (.inl rfl)) (hpair ⟨2⟩ (.inr rfl))
    hflat .origin
  have hother := equality_structural hs (by decide) (hpair ⟨0⟩ (.inl rfl)) hflat hflat .origin
  refine ⟨hsame.1.gives_iff.mpr (by simp), hother.1.gives_iff.mpr (by simp), ?_⟩
  exact (hother.2.2.2.2.2 hnot (by decide) (by decide)).gives_iff.mpr (by simp)

end

end Quill
