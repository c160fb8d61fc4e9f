import TypedForest.Json.Parser
import TypedForest.Proofs.Json.Scan

/-!
# JSON values are read back

Writing a value and reading the text gives the value again, in the compact and in the
indented layout.  The layouts differ in the blanks between tokens, which scanning
skips; what is left to show is that the tokens of a value are assembled into the value
whatever arrays and objects are open around it.

## Main Definitions

* `Json.Legible`: all atoms and keys of the value can be spelled.
* `Json.Assembles`, `Json.Awaits`: runs of the automaton, and where a value may start.

## Main Results

* `Json.Legible.readable`: a written value can be taken apart into its tokens.
* `Json.Legible.assembles`: its tokens are assembled into the value.
* `Json.Legible.read?_write`: a value is read back from its text.
-/

namespace TypedForest.Json

/-- All atoms and keys of the value can be spelled. -/
inductive Legible : Json → Prop
  | atom {a : Atom} (h : a.Legible) : Legible (.atom a)
  | array {items : List Json} (h : ∀ j ∈ items, Legible j) : Legible (.array items)
  | object {members : List (List Glyph × Json)}
      (hkeys : ∀ m ∈ members, ∃ t : String, m.1 = Glyph.ofText t)
      (h : ∀ m ∈ members, Legible m.2) : Legible (.object members)

/-! ### Tokens apart -/

theorem Style.isBlank_line (style : Style) (depth : Nat) :
    ∀ c ∈ style.line depth, Token.isBlank c = true := by
  cases style with
  | compact => simp [Style.line]
  | indented =>
      intro c hc
      rcases List.mem_cons.mp hc with rfl | hc
      · decide
      · rw [List.eq_of_mem_replicate hc]
        decide

theorem Style.isBlank_gap (style : Style) : ∀ c ∈ style.gap, Token.isBlank c = true := by
  cases style <;> exact List.all_eq_true.mp (by decide)

variable {style : Style} {depth : Nat} {before : List Char}

/-- The items of an array after the first are readable if each item is. -/
theorem readable_furtherItems {items : List Json}
    (h : ∀ j ∈ items, Readable (lexemes style depth (style.line depth) j)) :
    Readable (furtherItems style depth items) ∧
      ∀ l ∈ (furtherItems style depth items).head?, l.token.isWord = false := by
  induction items with
  | nil => exact ⟨.nil, by simp [furtherItems]⟩
  | cons item items ih =>
      obtain ⟨hitem, hitems⟩ := List.forall_mem_cons.mp h
      obtain ⟨hrest, hhead⟩ := ih hitems
      refine ⟨.cons ⟨by simp, trivial⟩ rfl (hitem.append hrest hhead), ?_⟩
      rintro l ⟨⟩
      rfl

/-- The members of an object after the first are readable if each value is. -/
theorem readable_furtherMembers {members : List (List Glyph × Json)}
    (hkeys : ∀ m ∈ members, ∃ t : String, m.1 = Glyph.ofText t)
    (h : ∀ m ∈ members, Readable (lexemes style depth style.gap m.2)) :
    Readable (furtherMembers style depth members) ∧
      ∀ l ∈ (furtherMembers style depth members).head?, l.token.isWord = false := by
  induction members with
  | nil => exact ⟨.nil, by simp [furtherMembers]⟩
  | cons member members ih =>
      obtain ⟨hkey, hkeys⟩ := List.forall_mem_cons.mp hkeys
      obtain ⟨hvalue, hvalues⟩ := List.forall_mem_cons.mp h
      obtain ⟨hrest, hhead⟩ := ih hkeys hvalues
      refine ⟨.cons ⟨by simp, trivial⟩ rfl (.cons ⟨style.isBlank_line depth, hkey⟩ rfl
        (.cons ⟨by simp, trivial⟩ rfl (hvalue.append hrest hhead))), ?_⟩
      rintro l ⟨⟩
      rfl

/-- **A written value can be taken apart into its tokens.** -/
theorem Legible.readable {j : Json} (h : j.Legible)
    (hbefore : ∀ c ∈ before, Token.isBlank c = true) :
    Readable (lexemes style depth before j) := by
  have hmark : ∀ {blanks : List Char} {token : Token},
      (∀ c ∈ blanks, Token.isBlank c = true) → token.Legible → Readable [⟨blanks, token⟩] :=
    fun hblanks htoken => .singleton ⟨hblanks, htoken⟩
  induction h generalizing depth before with
  | atom h =>
      rw [lexemes]
      exact hmark hbefore h
  | @array items _ ih =>
      cases items with
      | nil =>
          rw [lexemes]
          exact .cons ⟨hbefore, trivial⟩ rfl (hmark (by simp) trivial)
      | cons item items =>
          obtain ⟨hitem, hitems⟩ := List.forall_mem_cons.mp ih
          obtain ⟨hrest, hhead⟩ := readable_furtherItems fun j hj =>
            hitems j hj (style.isBlank_line (depth + 1))
          rw [lexemes]
          refine .cons ⟨hbefore, trivial⟩ rfl (.append
            ((hitem (style.isBlank_line (depth + 1))).append hrest hhead)
            (hmark (style.isBlank_line depth) trivial) ?_)
          rintro l ⟨⟩
          rfl
  | @object members hkeys _ ih =>
      cases members with
      | nil =>
          rw [lexemes]
          exact .cons ⟨hbefore, trivial⟩ rfl (hmark (by simp) trivial)
      | cons member members =>
          obtain ⟨hkey, hkeys⟩ := List.forall_mem_cons.mp hkeys
          obtain ⟨hvalue, hvalues⟩ := List.forall_mem_cons.mp ih
          obtain ⟨hrest, hhead⟩ := readable_furtherMembers hkeys fun m hm =>
            hvalues m hm style.isBlank_gap
          rw [lexemes]
          refine .cons ⟨hbefore, trivial⟩ rfl (.cons ⟨style.isBlank_line (depth + 1), hkey⟩ rfl
            (.cons ⟨by simp, trivial⟩ rfl (.append
              ((hvalue style.isBlank_gap).append hrest hhead)
              (hmark (style.isBlank_line depth) trivial) ?_)))
          rintro l ⟨⟩
          rfl

/-! ### Tokens assembled -/

/-- The tokens of the lexemes take one state of the automaton to another. -/
def Assembles (ls : List Lexeme) (s s' : Parse) : Prop :=
  (ls.map Lexeme.token).foldlM Parse.step s = some s'

namespace Assembles

variable {ls ks : List Lexeme} {l : Lexeme} {s s' s'' : Parse}

theorem nil (s : Parse) : Assembles [] s s := rfl

theorem cons (hl : s.step l.token = some s') (hls : Assembles ls s' s'') :
    Assembles (l :: ls) s s'' := by
  rw [Assembles, List.map_cons, List.foldlM_cons, hl]
  exact hls

theorem append (hls : Assembles ls s s') (hks : Assembles ks s' s'') :
    Assembles (ls ++ ks) s s'' := by
  rw [Assembles, List.map_append, List.foldlM_append, hls]
  exact hks

end Assembles

variable {stack : List Parse.Frame}

/-- A value may start here, with the given frames open around it. -/
def Awaits (s : Parse) (stack : List Parse.Frame) : Prop :=
  ∀ token, token ≠ .endArray → s.step token = Parse.start stack token

theorem awaits_value (stack : List Parse.Frame) : Awaits (.value stack) stack := fun _ _ => rfl

theorem awaits_firstItem (stack : List Parse.Frame) :
    Awaits (.firstItem stack) (.array [] :: stack) := by
  intro token htoken
  cases token with
  | endArray => exact absurd rfl htoken
  | _ => rfl

/-- The items of an array after the first are added to it, and the array is closed. -/
theorem assembles_furtherItems {items : List Json} {blanks : List Char}
    (h : ∀ j ∈ items, ∀ {s : Parse} {stack : List Parse.Frame}, Awaits s stack →
      Assembles (lexemes style depth (style.line depth) j) s (.done stack j))
    (seen : List Json) (v : Json) :
    Assembles (furtherItems style depth items ++ [⟨blanks, .endArray⟩])
      (.done (.array seen :: stack) v) (.done stack (.array ((v :: seen).reverse ++ items))) := by
  induction items generalizing seen v with
  | nil =>
      rw [List.append_nil]
      exact .cons rfl (.nil _)
  | cons item items ih =>
      obtain ⟨hitem, hitems⟩ := List.forall_mem_cons.mp h
      rw [furtherItems, List.cons_append, List.append_assoc]
      refine .cons rfl ((hitem (awaits_value _)).append ?_)
      have hrest := ih hitems (v :: seen) item
      rwa [List.reverse_cons, List.append_assoc] at hrest

/-- The members of an object after the first are added to it, and it is closed. -/
theorem assembles_furtherMembers {members : List (List Glyph × Json)} {blanks : List Char}
    (h : ∀ m ∈ members, ∀ {s : Parse} {stack : List Parse.Frame}, Awaits s stack →
      Assembles (lexemes style depth style.gap m.2) s (.done stack m.2))
    (seen : List (List Glyph × Json)) (key : List Glyph) (v : Json) :
    Assembles (furtherMembers style depth members ++ [⟨blanks, .endObject⟩])
      (.done (.member seen key :: stack) v)
      (.done stack (.object (((key, v) :: seen).reverse ++ members))) := by
  induction members generalizing seen key v with
  | nil =>
      rw [List.append_nil]
      exact .cons rfl (.nil _)
  | cons member members ih =>
      obtain ⟨hvalue, hvalues⟩ := List.forall_mem_cons.mp h
      rw [furtherMembers, List.cons_append, List.cons_append, List.cons_append, List.append_assoc]
      refine .cons rfl (.cons rfl (.cons rfl ((hvalue (awaits_value _)).append ?_)))
      have hrest := ih hvalues ((key, v) :: seen) member.1 member.2
      rwa [List.reverse_cons, List.append_assoc] at hrest

/-- **The tokens of a value are assembled into the value**, wherever a value may start. -/
theorem Legible.assembles {j : Json} (h : j.Legible) {s : Parse} (hs : Awaits s stack) :
    Assembles (lexemes style depth before j) s (.done stack j) := by
  induction h generalizing depth before s stack with
  | atom _ =>
      rw [lexemes]
      exact .cons (hs _ nofun) (.nil _)
  | @array items _ ih =>
      cases items with
      | nil =>
          rw [lexemes]
          exact .cons (hs _ nofun) (.cons rfl (.nil _))
      | cons item items =>
          obtain ⟨hitem, hitems⟩ := List.forall_mem_cons.mp ih
          rw [lexemes, List.append_assoc]
          exact .cons (hs _ nofun) ((hitem (awaits_firstItem stack)).append
            (assembles_furtherItems (fun j hj => hitems j hj) [] item))
  | @object members _ _ ih =>
      cases members with
      | nil =>
          rw [lexemes]
          exact .cons (hs _ nofun) (.cons rfl (.nil _))
      | cons member members =>
          obtain ⟨hvalue, hvalues⟩ := List.forall_mem_cons.mp ih
          rw [lexemes, List.append_assoc]
          exact .cons (hs _ nofun) (.cons rfl (.cons rfl
            ((hvalue (awaits_value (.member [] member.1 :: stack))).append
              (assembles_furtherMembers (fun m hm => hvalues m hm) [] member.1 member.2))))

/-- **A value is read back from its text**, in either layout. -/
theorem Legible.read?_write {j : Json} (h : j.Legible) (style : Style) :
    read? (j.write style) = some j := by
  have hreadable : Readable (lexemes style 0 [] j) := h.readable (by simp)
  have hvalue : Assembles (lexemes style 0 [] j) (.value []) (.done [] j) :=
    h.assembles (awaits_value [])
  rw [read?, write, String.toList_ofList, hreadable.scan?_eq]
  show ((List.map Lexeme.token _).foldlM Parse.step (.value [])).bind Parse.finish = some j
  rw [hvalue]
  rfl

end TypedForest.Json
