import Quill.Proofs.Grammar.Heads
import Quill.Proofs.Printing.Behind
import Quill.Proofs.WellFormed

/-!
# What is called can be defined

Names after the dot of a call and names after `def` are read by two parsers. Every name that is read
in a call is read in a definition, and so is the name of the assignment to a member, unless the
member is a reserved word. Main statement: `called_is_definable`.
-/

namespace Quill

open Token Piece Grammar

inductive DefinedName where
  | called (m : MethodName)
  | index
  | setter (name : SetterName) (free : Keyword.ofText? name.text = none)
  | indexSetter

namespace DefinedName

def text : DefinedName → String
  | called m => m.text
  | index => "[]"
  | setter name _ => name.text ++ "="
  | indexSetter => "[]="

def pieces : DefinedName → List Piece
  | called m => [m.piece]
  | index => [.mark .lBracket, .mark .rBracket]
  | setter name _ => [.word name.text, .mark .assign]
  | indexSetter => [.mark .lBracket, .mark .rBracket, .mark .assign]

end DefinedName

def defining (qs : List Piece) : List Piece := .word Keyword.def_.text :: .blank :: qs

theorem kinds_defining (qs : List Piece) : kinds (defining qs) = .keyword .def_ :: kinds qs := rfl

theorem spell_defining (qs : List Piece) : spell (defining qs) = "def ".toList ++ spell qs := rfl

theorem size_defining (qs : List Piece) : size (defining qs) = size qs + 1 := rfl

theorem lexes_defining {tail : List Char} {q : Piece} {qs : List Piece}
    (h : LexesBefore tail (q :: qs)) (hq : q.visible = true) :
    LexesBefore tail (defining (q :: qs)) :=
  ⟨keyword_scans .def_ (.of_cons (by decide)), h.blank hq⟩

theorem mark_scans_nameEnds {tail : List Char} {m : Mark} (hm : m ≠ .colon)
    (h : ∀ c ∈ tail.head?, c ∈ nameEnds) : (Piece.mark m).Scans tail :=
  mark_scans hm fun c hc ↦ Mark.growsBy_nameEnds (h c hc) m

theorem lexes_setter {tail : List Char} (name : SetterName) (h : ∀ c ∈ tail.head?, c ∈ nameEnds) :
    LexesBefore tail (defining [.word name.text, .mark .assign]) :=
  lexes_defining ⟨setter_scans name, mark_scans_nameEnds (by decide) h, trivial⟩ rfl

namespace DefinedName

theorem spell_pieces (n : DefinedName) : spell n.pieces = n.text.toList := by
  cases n with
  | called m => cases m <;> exact List.append_nil _
  | index => rfl
  | setter name _ =>
    rw [text, String.toList_append]
    rfl
  | indexSetter => rfl

theorem lexes {tail : List Char} (n : DefinedName) (h : ∀ c ∈ tail.head?, c ∈ nameEnds) :
    LexesBefore tail (defining n.pieces) := by
  have hbracket (cs : List Char) : (Piece.mark .lBracket).Scans cs :=
    mark_scans (by decide) fun _ _ ↦ rfl
  have hclose (cs : List Char) : (Piece.mark .rBracket).Scans cs :=
    mark_scans (by decide) fun _ _ ↦ rfl
  cases n with
  | called m =>
    refine lexes_defining ⟨?_, trivial⟩ m.visible
    cases m with
    | word name => exact word_scans name (.of_nameEnds h)
    | constant name => exact constant_scans name (.of_nameEnds h)
    | operator m hm => exact mark_scans_nameEnds (by rintro rfl; cases hm) h
  | index => exact lexes_defining ⟨hbracket _, hclose _, trivial⟩ rfl
  | setter name _ => exact lexes_setter name h
  | indexSetter =>
    exact lexes_defining ⟨hbracket _, hclose _, mark_scans_nameEnds (by decide) h, trivial⟩ rfl

end DefinedName

namespace Grammar

variable {c d : Cursor}

theorem Cursor.reads_kind {k : Kind} {ks : List Kind} (h : k :: ks <+: c.rest.map (·.kind)) :
    c.kind = k ∧ ks <+: c.next.rest.map (·.kind) := by
  obtain ⟨rest, _, _, _⟩ := c
  cases rest with
  | nil => cases List.prefix_nil.mp h
  | cons t more =>
    obtain ⟨hk, hmore⟩ := List.cons_prefix_cons.mp h
    exact ⟨hk.symm, hmore⟩

theorem definedName_eq (h : ∀ name, c.kind = .identifier name → c.second ≠ .mark .assign)
    (h' : c.kind = .mark .lBracket → c.third ≠ .mark .assign) : definedName c = methodName c := by
  unfold definedName
  rw [Parse.Agrees.get_bind]
  generalize c.kind = k, c.second = s, c.third = t at h h' ⊢
  split
  · exact absurd rfl (h _ rfl)
  · exact absurd rfl (h' rfl)
  · rfl

theorem singleton_eq (h : c.kind = .keyword .self → c.second ≠ .mark .dot) :
    singleton c = .ok (false, c) := by
  unfold singleton
  rw [Parse.Agrees.get_bind, Parse.Agrees.get_bind]
  generalize c.kind = k, c.second = s at h ⊢
  split
  · exact absurd rfl (h rfl)
  · rfl

theorem not_bracket (m : MethodName) : m.piece.kind ≠ .mark .lBracket := by
  cases m with
  | word name => exact nameKind_not_mark _ _
  | constant name => exact nofun
  | operator m names =>
    rintro ⟨⟩
    cases names

theorem Cursor.Heads.of_called (m : MethodName) (hdef : c.kind = .keyword .def_)
    (hm : c.next.kind = m.piece.kind)
    (hdot : m.piece.kind = .keyword .self → c.next.next.kind ≠ .mark .dot)
    (hassign : ∀ name, m.piece.kind = .identifier name → c.next.next.kind ≠ .mark .assign) :
    c.Heads ⟨m.text, c.next.span⟩ c.next.next where
  kind := hdef
  plain := singleton_eq (by rwa [hm, ← Cursor.next_kind])
  name := by
    rw [definedName_eq, methodName_at m hm]
    · rw [hm, ← Cursor.next_kind]
      exact hassign
    · rw [hm]
      exact fun h ↦ absurd h (not_bracket m)

theorem Cursor.heads_defining (n : DefinedName)
    (h : Piece.kinds (defining n.pieces) <+: c.rest.map (·.kind))
    (hd : Cursor.next^[size (defining n.pieces)] c = d) (hnext : followsName d.kind = true) :
    ∃ i, i.name = n.text ∧ c.Heads i d := by
  rw [kinds_defining] at h
  rw [size_defining] at hd
  obtain ⟨hdef, h⟩ := Cursor.reads_kind h
  have hassign : d.kind ≠ .mark .assign := fun hk ↦ by
    rw [hk] at hnext
    cases hnext
  -- `definedName` tells the forms of a name apart by up to three tokens, which are known here.
  cases n with
  | called m =>
    rw [DefinedName.pieces, size_cons m.visible] at hd
    rw [DefinedName.pieces, kinds_cons m.visible] at h
    obtain rfl : c.next.next = d := hd
    have hdot : c.next.next.kind ≠ .mark .dot := fun hk ↦ by
      rw [hk] at hnext
      cases hnext
    exact ⟨_, rfl, .of_called m hdef (Cursor.reads_kind h).1 (fun _ ↦ hdot) fun _ _ ↦ hassign⟩
  | index =>
    obtain rfl : c.next.next.next = d := hd
    obtain ⟨hopen, h⟩ := Cursor.reads_kind h
    have hopen : c.next.kind = .mark .lBracket := hopen
    have hclose : c.next.second = .mark .rBracket := c.next.next_kind ▸ (Cursor.reads_kind h).1
    refine ⟨⟨"[]", c.next.span.merge c.next.next.span⟩, rfl, hdef, singleton_eq ?_, ?_⟩
    · rw [hopen]
      rintro ⟨⟩
    · rw [definedName_eq]
      · unfold methodName
        rw [Parse.kind_bind, hopen]
        dsimp only
        rw [Parse.Agrees.get_bind, hclose]
        rfl
      · rw [hopen]
        rintro _ ⟨⟩
      · rw [← Cursor.next_second, ← Cursor.next_kind]
        exact fun _ ↦ hassign
  | setter name free =>
    obtain rfl : c.next.next.next = d := hd
    obtain ⟨hname, h⟩ := Cursor.reads_kind h
    have hequals : c.next.second = .mark .assign := c.next.next_kind ▸ (Cursor.reads_kind h).1
    have hname : c.next.kind = .identifier name.text := by
      rw [hname, Piece.kind, nameKind, String.ofList_toList, free]
    refine ⟨⟨name.text ++ "=", c.next.span.merge c.next.next.span⟩, rfl, hdef, singleton_eq ?_, ?_⟩
    · rw [hname]
      rintro ⟨⟩
    · unfold definedName
      rw [Parse.Agrees.get_bind, hname, hequals]
      rfl
  | indexSetter =>
    obtain rfl : c.next.next.next.next = d := hd
    obtain ⟨hopen, h⟩ := Cursor.reads_kind h
    obtain ⟨hclose, h⟩ := Cursor.reads_kind h
    have hclose : c.next.second = .mark .rBracket := c.next.next_kind ▸ hclose
    have hequals : c.next.third = .mark .assign := by
      rw [← Cursor.next_second, ← Cursor.next_kind]
      exact (Cursor.reads_kind h).1
    refine ⟨⟨"[]=", c.next.span.merge c.next.next.next.span⟩, rfl, hdef, singleton_eq ?_, ?_⟩
    · rw [hopen]
      rintro ⟨⟩
    · unfold definedName
      rw [Parse.Agrees.get_bind, hopen, hclose, hequals]
      rfl

end Grammar

theorem Ident.Called.definedName {i : Ident} (h : i.Called Kind.IsRead) :
    ∃ n : DefinedName, n.text = i.name := by
  cases h with
  | identifier h => exact ⟨.called (.word ⟨i.name, h.1⟩), rfl⟩
  | constant h => exact ⟨.called (.constant ⟨i.name, h⟩), rfl⟩
  | @word k h => exact ⟨.called (.word ⟨k.text, by cases k <;> decide⟩), h.symm⟩
  | @operator m names h => exact ⟨.called (.operator m names), h.symm⟩
  | index h => exact ⟨.index, h.symm⟩

theorem continuation_plain {cs : List Char} (h : continuation true cs = true)
    (hq : '?' ∉ cs) (he : '!' ∉ cs) : continuation false cs = true := by
  induction cs with
  | nil => rfl
  | cons c cs ih =>
    rw [List.mem_cons, not_or] at hq he
    rw [continuation] at h ⊢
    split at h
    · rw [if_pos ‹_›]
      exact ih h hq.2 he.2
    · simp only [Bool.and_eq_true, Bool.or_eq_true, beq_iff_eq] at h
      obtain h | h := h.2
      · exact absurd h.symm hq.1
      · exact absurd h.symm he.1

theorem Ident.Called.setterName {i : Ident} (h : i.Called Kind.IsRead)
    (hs : hasSetter i.name = true) : Token.isName startsName false i.name = true := by
  have hword := h.isName (Bool.and_eq_true_iff.mp hs).1
  obtain ⟨hq, he⟩ := (IsSetterName.of_called h hs).plain
  unfold Token.isName at hword ⊢
  split at hword
  · cases hword
  · rename_i c cs hname
    rw [hname] at hq he
    obtain ⟨hc, hcs⟩ := Bool.and_eq_true_iff.mp hword
    rw [List.mem_cons, not_or] at hq he
    exact Bool.and_eq_true_iff.mpr ⟨hc, continuation_plain hcs hq.2 he.2⟩

/-- The text is the definition of a method, which is the given one but for spans and
documentation. -/
def Program.Defines (text : String) (d : MethodDef) : Prop :=
  ∃ p d' s, Program.ofText? text = .ok p ∧ p.body = [⟨.method d', s⟩] ∧
    View.blank.methodDef d' = View.blank.methodDef d

namespace Program

variable {text rest : String} {d : MethodDef} {qs : List Piece}

theorem ofText?_ok {p : Program} (h : ofText? text = .ok p) :
    ∃ ts c, Token.ofText? text = .ok ts ∧ program (.ofTokens ts.toList) = .ok (p, c) := by
  unfold ofText? ofTokens? at h
  cases hts : Token.ofText? text with
  | error e =>
    rw [hts] at h
    cases h
  | ok ts =>
    rw [hts] at h
    dsimp only at h
    cases hp : program (.ofTokens ts.toList) with
    | error e =>
      rw [hp] at h
      cases h
    | ok r =>
      rw [hp] at h
      cases h
      exact ⟨ts, r.2, rfl, hp⟩

theorem ofText?_of_ok {ts : Array Token} {p : Program} {c : Cursor}
    (hts : Token.ofText? text = .ok ts) (hp : program (.ofTokens ts.toList) = .ok (p, c)) :
    ofText? text = .ok p := by
  unfold ofText? ofTokens?
  rw [hts]
  dsimp only
  rw [hp]

theorem ofText?_of_error {ts : Array Token} {e : ParseError}
    (hts : Token.ofText? text = .ok ts) (hp : program (.ofTokens ts.toList) = .error e) :
    ofText? text = .error (.parse e) := by
  unfold ofText? ofTokens?
  rw [hts]
  dsimp only
  rw [hp]

def letter : VariableName := ⟨⟨"f", by decide⟩, by decide⟩

/-- What follows the name `f` of a method follows other pieces as well. -/
structure Moved (d : MethodDef) (qs : List Piece) (us : Array Token) (c c' : Cursor) : Prop where
  bounded : c.Bounded
  heads : ∃ i, c.Heads i c'
  program : ∃ p m s c'', Grammar.program c = .ok (p, c'') ∧ p.body = [⟨.method m, s⟩] ∧
    View.blank.methodDef m = View.blank.methodDef d
  follows : followsName c'.kind = true
  kinds : Piece.kinds (defining qs) <+: (Cursor.ofTokens us.toList).rest.map (·.kind)
  alike : c'.Alike .blank (Cursor.next^[size (defining qs)] (.ofTokens us.toList))

theorem follows_letter {c c'' : Cursor} {p : Program} {m : MethodDef} {s : Span} (hc : c.Bounded)
    (hdef : c.kind = .keyword .def_) (hf : c.next.kind = nameKind letter.text.toList)
    (hp : program c = .ok (p, c'')) (hbody : p.body = [⟨.method m, s⟩]) (hm : m.name.name = "f") :
    followsName c.next.next.kind = true := by
  by_cases hk : c.next.next.kind = .mark .assign
  · -- The name would be that of an assignment.
    have heads : c.Heads ⟨"f" ++ "=", c.next.span.merge c.next.next.span⟩ c.next.next.next := by
      refine ⟨hdef, singleton_eq ?_, ?_⟩
      · rw [hf, nameKind_variable]
        exact nofun
      · unfold definedName
        rw [Parse.Agrees.get_bind, hf, nameKind_variable, ← Cursor.next_kind, hk]
        rfl
    have hletter : c.next.kind ≠ .eof := by
      rw [hf, nameKind_variable]
      nofun
    have hassign : c.next.next.kind ≠ .eof := by
      rw [hk]
      nofun
    have halike := (((hc.alike .blank).next (by rw [hdef]; nofun)).next hletter).next hassign
    have hname := (program_renamed hc hc heads heads halike hp hbody).1
    rw [hname] at hm
    exact absurd (show "f" ++ "=" = "f" from hm) (by decide)
  · refine Bool.of_not_eq_false fun hnot ↦ ?_
    have heads := Cursor.Heads.of_called (.word letter.toName) hdef hf nofun fun _ _ ↦ hk
    rw [program_unnamed hc heads hnot] at hp
    cases hp

theorem Defines.moved (hd : Defines ("def f" ++ rest) d) (hname : d.name.name = "f")
    (hrest : ∀ c ∈ rest.toList.head?, c ∈ nameEnds)
    (hq : LexesBefore rest.toList (defining qs)) (hne : qs ≠ []) (hs : ∀ value, .str value ∉ qs) :
    ∃ us c c', Token.ofText? (String.ofList (spell (defining qs) ++ rest.toList)) = .ok us ∧
      Moved d qs us c c' := by
  obtain ⟨p, m, s, hp, hbody, hm⟩ := hd
  obtain ⟨ts, c'', hts, hprogram⟩ := ofText?_ok hp
  have hletter : LexesBefore rest.toList (defining [.word letter.text]) :=
    (DefinedName.called (.word letter.toName)).lexes hrest
  have hspell : "def f" ++ rest =
      String.ofList (spell (defining [.word letter.text]) ++ rest.toList) := by
    rw [String.ofList_append, String.ofList_toList]
    rfl
  have hle : (spell (defining [.word letter.text])).length ≤ (spell (defining qs)).length := by
    obtain ⟨q, qs, rfl⟩ := List.exists_cons_of_ne_nil hne
    obtain ⟨c, cs, htext, -⟩ := hq.2.2.1
    simp only [defining, spell_cons, spell_nil, List.length_append, htext, List.length_cons,
      List.append_nil]
    exact Nat.add_le_add_left (Nat.add_le_add_left (by simp [Piece.text, letter]; omega) _) _
  rw [hspell] at hts
  obtain ⟨us, hus, hshare⟩ := ofText?_behind hletter hq
    (hletter.inline (by simp [defining])) (hq.inline (by simpa [defining] using hs)) hle hts
  have hleft := hshare.left
  rw [kinds_defining] at hleft
  obtain ⟨hdef, hleft⟩ := Cursor.reads_kind hleft
  have hf := (Cursor.reads_kind hleft).1
  have hmname : m.name.name = "f" := by
    rw [← hname]
    exact View.name_eq hm
  have hc := Cursor.ofTokens_limit ts.toList
  have hfollows := follows_letter hc hdef hf hprogram hbody hmname
  refine ⟨us, _, _, hus, hc, ⟨_, .of_called (.word letter.toName) hdef hf ?_ ?_⟩,
    ⟨p, m, s, c'', hprogram, hbody, hm⟩, hfollows, hshare.right,
    hshare.alike hc (Cursor.ofTokens_limit _)⟩
  · rintro ⟨⟩
  · intro _ _ hk
    rw [hk] at hfollows
    cases hfollows

theorem Defines.named (n : DefinedName) (hd : Defines ("def f" ++ rest) d)
    (hname : d.name.name = "f") (hrest : ∀ c ∈ rest.toList.head?, c ∈ nameEnds) :
    Defines ("def " ++ n.text ++ rest) (d.named n.text) := by
  have hne : n.pieces ≠ [] := by cases n <;> exact nofun
  have hs (value : String) : .str value ∉ n.pieces := by
    cases n with
    | called m => cases m <;> simp [DefinedName.pieces, MethodName.piece]
    | _ => simp [DefinedName.pieces]
  have hspell : "def " ++ n.text ++ rest =
      String.ofList (spell (defining n.pieces) ++ rest.toList) := by
    apply String.toList_injective
    simp [spell_defining, n.spell_pieces]
  obtain ⟨us, c, c', hus, hmoved⟩ := hd.moved hname hrest (n.lexes hrest) hne hs
  rw [← hspell] at hus
  obtain ⟨p, m, s, c'', hp, hbody, hm⟩ := hmoved.program
  obtain ⟨i, hi⟩ := hmoved.heads
  have hfollows := hmoved.follows
  rw [hmoved.alike.kind] at hfollows
  obtain ⟨j, hj, hheads⟩ := Cursor.heads_defining n hmoved.kinds rfl hfollows
  obtain ⟨-, q, m', t, d'', hq, hbody', hm'⟩ :=
    program_renamed hmoved.bounded (Cursor.ofTokens_limit _) hi hheads hmoved.alike hp hbody
  refine ⟨q, m', t, ofText?_of_ok hus hq, hbody', hm'.trans ?_⟩
  rw [hj, View.methodDef_named, hm, View.methodDef_named]

theorem Defines.reserved (k : Keyword) (hd : Defines ("def f" ++ rest) d)
    (hname : d.name.name = "f") (hrest : ∀ c ∈ rest.toList.head?, c ∈ nameEnds) :
    ∃ s, ofText? ("def " ++ k.text ++ "=" ++ rest) =
      .error (.parse ⟨.separator, .token (.mark .assign), s⟩) := by
  let name : SetterName := ⟨k.text, by cases k <;> decide⟩
  have hspell : "def " ++ k.text ++ "=" ++ rest =
      String.ofList (spell (defining [.word name.text, .mark .assign]) ++ rest.toList) := by
    apply String.toList_injective
    simp [spell_defining, Piece.text, Mark.text, name]
  obtain ⟨us, c, c', hus, hmoved⟩ :=
    hd.moved hname hrest (lexes_setter name hrest) nofun (by simp)
  rw [← hspell] at hus
  have hkinds := hmoved.kinds
  rw [kinds_defining] at hkinds
  obtain ⟨hdef, hkinds⟩ := Cursor.reads_kind hkinds
  obtain ⟨hk, hkinds⟩ := Cursor.reads_kind hkinds
  have hassign := (Cursor.reads_kind hkinds).1
  have hheads := Cursor.Heads.of_called (.word ⟨k.text, by cases k <;> decide⟩) hdef hk
    (fun _ h ↦ by rw [hassign] at h; cases h) (fun name h ↦ ?_)
  · have herror := program_unnamed (Cursor.ofTokens_limit us.toList) hheads (by rw [hassign]; rfl)
    rw [Cursor.unexpected, hassign] at herror
    exact ⟨_, ofText?_of_error hus herror⟩
  · rw [MethodName.piece, Piece.kind, nameKind_keyword] at h
    cases h

theorem exists_program {α : Type} {f : Program → Option α} {a : α}
    (h : (ofText? text).toOption.bind f = some a) : ∃ p, ofText? text = .ok p ∧ f p = some a := by
  cases hp : ofText? text with
  | error e =>
    rw [hp] at h
    cases h
  | ok p =>
    rw [hp] at h
    exact ⟨p, rfl, h⟩

/-- The name of the member that is assigned to by the only statement. -/
def member? (p : Program) : Option String :=
  match p.body with
  | [⟨.assign (.member _ i) _, _⟩] => some i.name
  | _ => none

theorem exists_member {name : String} (h : (ofText? text).toOption.bind member? = some name) :
    ∃ p receiver i v s, ofText? text = .ok p ∧
      p.body = [⟨.assign (.member receiver i) v, s⟩] ∧ i.name = name := by
  obtain ⟨p, hp, h⟩ := exists_program h
  unfold member? at h
  split at h
  · rename_i receiver i v s hbody
    exact ⟨p, receiver, i, v, s, hp, hbody, Option.some.inj h⟩
  · cases h

def method? (p : Program) : Option String :=
  match p.body with
  | [⟨.method d, _⟩] => some d.name.name
  | _ => none

theorem exists_method {name : String} (h : (ofText? text).toOption.bind method? = some name) :
    ∃ d, Defines text d ∧ d.name.name = name := by
  obtain ⟨p, hp, h⟩ := exists_program h
  unfold method? at h
  split at h
  · rename_i d s hbody
    exact ⟨d, ⟨p, d, s, hp, hbody, rfl⟩, Option.some.inj h⟩
  · cases h

end Program

/-- Let `def f` be the definition of a method with something behind the name. With the same behind
it, a method can be defined under every name that a program calls with a dot, and under the name
that the assignment to a member calls, which ends with an equals sign, except where the member is a
reserved word: there the equals sign is not expected. -/
theorem called_is_definable {text rest : String} {p : Program} {d : MethodDef}
    (hp : Program.ofText? text = .ok p) (hd : Program.Defines ("def f" ++ rest) d)
    (hname : d.name.name = "f") (hrest : ∀ c ∈ rest.toList.head?, c ∈ nameEnds) :
    (∀ receiver m args b s,
      (Node.program p).Inside (.expr ⟨.call (some receiver) m args b, s⟩) →
        Program.Defines ("def " ++ m.name ++ rest) (d.named m.name)) ∧
    (∀ node, (Node.program p).Inside node →
      ∀ receiver i, node.target? = some (.member receiver i) →
        (Keyword.ofText? i.name = none →
          Program.Defines ("def " ++ i.name ++ "=" ++ rest) (d.named (i.name ++ "="))) ∧
        ∀ k, Keyword.ofText? i.name = some k →
          ∃ s, Program.ofText? ("def " ++ i.name ++ "=" ++ rest) =
            .error (.parse ⟨.separator, .token (.mark .assign), s⟩)) ∧
    Program.Defines ("def []=" ++ rest) (d.named "[]=") := by
  have hsound := Program.ofText?_sound hp
  refine ⟨fun receiver m args b s hm ↦ ?_, fun node hnode receiver i hi ↦ ⟨fun hfree ↦ ?_, ?_⟩, ?_⟩
  · have hcalled : m.Called Kind.IsRead := hsound _ hm
    obtain ⟨n, hn⟩ := hcalled.definedName
    rw [← hn]
    exact hd.named n hname hrest
  · obtain ⟨hs, hcalled⟩ := (hsound _ hnode).target hi
    have hsetter := hd.named (.setter ⟨i.name, hcalled.setterName hs⟩ hfree) hname hrest
    rwa [DefinedName.text, ← String.append_assoc] at hsetter
  · intro k hk
    rw [← Keyword.text_of_ofText? hk]
    exact hd.reserved k hname hrest
  · exact hd.named .indexSetter hname hrest

/-- The assignment `x.size = v` has a method that can be defined. -/
theorem size_is_definable :
    ∃ p receiver i v s d, Program.ofText? "x.size = v" = .ok p ∧
      p.body = [⟨.assign (.member receiver i) v, s⟩] ∧ i.name = "size" ∧
      Program.Defines ("def f" ++ "(v)\nend") d ∧ d.name.name = "f" ∧
      (∀ c ∈ "(v)\nend".toList.head?, c ∈ nameEnds) ∧
      Program.Defines ("def " ++ i.name ++ "=" ++ "(v)\nend") (d.named (i.name ++ "=")) := by
  obtain ⟨p, receiver, i, v, s, hp, hbody, hi⟩ : ∃ p receiver i v s,
      Program.ofText? "x.size = v" = .ok p ∧
        p.body = [⟨.assign (.member receiver i) v, s⟩] ∧ i.name = "size" :=
    Program.exists_member (by decide +kernel)
  obtain ⟨d, hd, hname⟩ : ∃ d, Program.Defines ("def f" ++ "(v)\nend") d ∧ d.name.name = "f" :=
    Program.exists_method (by decide +kernel)
  have hrest : ∀ c ∈ "(v)\nend".toList.head?, c ∈ nameEnds := by
    rintro _ ⟨⟩
    decide
  have hnode : (Node.program p).Inside (.expr ⟨.assign (.member receiver i) v, s⟩) :=
    .single (by simp [Node.children, hbody])
  have hfree : Keyword.ofText? i.name = none := by
    rw [hi]
    decide
  exact ⟨p, receiver, i, v, s, d, hp, hbody, hi, hd, hname, hrest,
    ((called_is_definable hp hd hname hrest).2.1 _ hnode receiver i rfl).1 hfree⟩

/-- The assignment `x.end = v` has a member for its target, but its method cannot be defined. -/
theorem end_is_assignable :
    (∃ p receiver i v s, Program.ofText? "x.end = v" = .ok p ∧
      p.body = [⟨.assign (.member receiver i) v, s⟩] ∧ i.name = "end") ∧
    ∃ s, Program.ofText? ("def " ++ "end" ++ "=" ++ "(v)\nend") =
      .error (.parse ⟨.separator, .token (.mark .assign), s⟩) := by
  obtain ⟨d, hd, hname⟩ : ∃ d, Program.Defines ("def f" ++ "(v)\nend") d ∧ d.name.name = "f" :=
    Program.exists_method (by decide +kernel)
  refine ⟨Program.exists_member (by decide +kernel), hd.reserved .end_ hname ?_⟩
  rintro _ ⟨⟩
  decide

end Quill
