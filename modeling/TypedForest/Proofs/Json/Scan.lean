import Mathlib.Data.List.Chain
import Mathlib.Tactic.IntervalCases
import TypedForest.Json.Printer
import TypedForest.Proofs.Number.Numeral

/-!
# Scanning what was written

A written value is a list of tokens with blanks before them.  Scanning its text gives
the tokens again.  There are two things to see to.  A string must come back glyph by
glyph, whatever is escaped in it.  And a word, that is, a number or one of `null`,
`true` and `false`, has no end of its own: the character after it must be one that
cannot belong to it.

## Main Definitions

* `Numeral.Plain`, `Json.Atom.Legible`, `Token.Legible`: what a text can spell.
* `Scan.settled`: the tokens of a scan, if the last one may end here.
* `Lexeme.Apart`, `Readable`: no two words stand side by side.

## Main Results

* `Token.numeral?_chars`: the parts of a JSON number are read back.
* `Scan.foldlM_glyphs`: so are the characters of a string.
* `Scan.foldlM_lexeme`: so is a token with the blanks before it.
* `Readable.scan?_eq`: and so are the tokens of a written text.

## Design Notes

An unpaired half of a surrogate pair is not legible.  Its escape is read back, but two
such escapes in a row may be read as one character.
-/

namespace TypedForest

/-! ### Numbers -/

/-- A numeral as JSON writes numbers: no zero stands in front of other digits. -/
structure Numeral.Plain (n : Numeral) : Prop extends n.WellFormed where
  head_ne_zero : n.whole.head? = some '0' → n.whole.length = 1

namespace Numeral

/-- Only zero is written with a zero in front. -/
theorem eq_zero_of_head?_toDigits {n : Nat} (h : (Nat.toDigits 10 n).head? = some '0') :
    n = 0 := by
  induction n using Nat.strongRecOn with
  | ind n ih =>
      by_cases hlt : n < 10
      · have hdigit : ∀ d < 10, Nat.digitChar d = '0' → d = 0 := by decide
        rw [Nat.toDigits_of_lt_base hlt] at h
        exact hdigit n hlt (Option.some.inj h)
      · -- The digits of a larger number start like those of a tenth of it, which is not zero.
        have hge : 10 ≤ n := Nat.not_lt.mp hlt
        rw [Nat.toDigits_of_base_le (by decide) hge,
          List.head?_append_of_ne_nil _ Nat.toDigits_ne_nil] at h
        have hzero := ih (n / 10) (by omega) h
        omega

theorem plain_ofInt (i : Int) : (ofInt i).Plain where
  whole_ne_nil := Nat.toDigits_ne_nil
  whole_digits _ := isDigit_of_mem_toDigits
  fraction_digits := by simp [ofInt]
  head_ne_zero h := by
    have hzero : i.natAbs = 0 := eq_zero_of_head?_toDigits h
    simp [ofInt, hzero]

end Numeral

namespace Token

/-- A minus sign in front of a digit is seen and taken off. -/
theorem minus_append (negative : Bool) {c : Char} (cs : List Char) (hc : c.isDigit = true) :
    (((if negative then ['-'] else []) ++ c :: cs).head? == some '-') = negative ∧
      (if negative then ((if negative then ['-'] else []) ++ c :: cs).tail
        else (if negative then ['-'] else []) ++ c :: cs) = c :: cs := by
  cases negative with
  | true => exact ⟨rfl, rfl⟩
  | false =>
      have hminus : c ≠ '-' := by
        rintro rfl
        exact absurd hc (by decide)
      exact ⟨by simpa using hminus, rfl⟩

/-- **The parts of a JSON number are read back.** -/
theorem numeral?_chars {n : Numeral} (hn : n.Plain) : numeral? (n.chars true) = some n := by
  obtain ⟨negative, whole, fraction, exponent⟩ := n
  obtain ⟨⟨hne, hwhole, hfraction⟩, hzero⟩ := hn
  obtain ⟨c, whole, rfl⟩ := List.exists_cons_of_ne_nil hne
  have hexp : ∀ d, ((exponent.map (Numeral.exponentChars true)).getD []).head? = some d →
      d.isDigit = false := by
    intro d hd
    rw [Numeral.head?_exponentChars true exponent hd]
    decide
  have hsign := fun cs => minus_append negative cs (hwhole c List.mem_cons_self)
  have hfirst : ((c :: whole).isEmpty || ((c :: whole).head? == some '0' &&
      (c :: whole).length != 1)) = false := by
    cases hlen : (c :: whole).length != 1 with
    | false => simp
    | true =>
        have hc : c ≠ '0' := by
          rintro rfl
          simp [hzero rfl] at hlen
        simpa using hc
  cases fraction with
  | nil =>
      obtain ⟨htake, hdrop⟩ := Numeral.takeWhile_digits hwhole hexp
      obtain ⟨hnegative, hrest⟩ := hsign (whole ++
        (exponent.map (Numeral.exponentChars true)).getD [])
      simp only [Numeral.chars, List.isEmpty_nil, if_true, List.append_nil, List.append_assoc,
        List.cons_append] at htake hdrop hnegative hrest ⊢
      simp only [numeral?, hnegative, hrest, htake, hdrop, hfirst, Bool.false_eq_true, if_false]
      -- What follows the digits is an exponent, so it does not start with a point.
      split
      case h_1 more hmore =>
        have hhead := Numeral.head?_exponentChars true exponent (c := '.') (by rw [hmore]; rfl)
        exact absurd hhead (by decide)
      case h_2 => simp [Numeral.exponent?_chars]
  | cons d fraction =>
      have hpoint : ∀ x, ('.' :: (d :: fraction) ++
          (exponent.map (Numeral.exponentChars true)).getD []).head? = some x →
            x.isDigit = false := by
        intro x hx
        obtain rfl := Option.some.inj hx
        decide
      obtain ⟨htake, hdrop⟩ := Numeral.takeWhile_digits hwhole hpoint
      obtain ⟨htake', hdrop'⟩ := Numeral.takeWhile_digits hfraction hexp
      obtain ⟨hnegative, hrest⟩ := hsign (whole ++ ('.' :: (d :: fraction) ++
        (exponent.map (Numeral.exponentChars true)).getD []))
      simp only [Numeral.chars, List.isEmpty_cons, Bool.false_eq_true, if_false,
        List.append_assoc, List.cons_append] at htake hdrop htake' hdrop' hnegative hrest ⊢
      simp only [numeral?, hnegative, hrest, htake, hdrop, hfirst, Bool.false_eq_true, if_false]
      simp only [htake', hdrop', Numeral.exponent?_chars, List.isEmpty_cons, Bool.false_eq_true,
        if_false, Option.map_some]

end Token

/-! ### Legible tokens -/

/-- The atom can be spelled: a number as JSON writes them, a string of characters. -/
def Json.Atom.Legible : Json.Atom → Prop
  | .number n => n.Plain
  | .string s => ∃ t : String, s = Glyph.ofText t
  | _ => True

namespace Token

/-- The token can be spelled. -/
def Legible : Token → Prop
  | atom a => a.Legible
  | _ => True

/-- Does the token end only where another character stands? -/
def isWord : Token → Bool
  | atom (.string _) => false
  | atom _ => true
  | _ => false

theorem isWordChar_of_isDigit {c : Char} (h : c.isDigit = true) : isWordChar c = true := by
  simp [isWordChar, Char.isAlphanum, h]

theorem isWordChar_of_mem_exponentChars {e : Int} {c : Char}
    (h : c ∈ Numeral.exponentChars true e) : isWordChar c = true := by
  simp only [Numeral.exponentChars, List.cons_append, List.mem_cons, List.mem_append] at h
  rcases h with rfl | hsign | hdigit
  · decide
  · split at hsign
    · rw [List.mem_singleton.mp hsign]
      decide
    · rw [List.mem_singleton.mp hsign]
      decide
  · exact isWordChar_of_isDigit (Numeral.isDigit_of_mem_toDigits hdigit)

/-- A number is made of word characters. -/
theorem isWordChar_of_mem_chars {n : Numeral} (hn : n.Plain) {c : Char} (h : c ∈ n.chars true) :
    isWordChar c = true := by
  simp only [Numeral.chars, List.mem_append] at h
  rcases h with ((hsign | hwhole) | hfraction) | hexponent
  · split at hsign
    · rw [List.mem_singleton.mp hsign]
      decide
    · cases hsign
  · exact isWordChar_of_isDigit (hn.whole_digits c hwhole)
  · split at hfraction
    · cases hfraction
    · rcases List.mem_cons.mp hfraction with rfl | hdigit
      · decide
      · exact isWordChar_of_isDigit (hn.fraction_digits c hdigit)
  · cases he : n.exponent with
    | none =>
        rw [he] at hexponent
        cases hexponent
    | some e =>
        rw [he] at hexponent
        exact isWordChar_of_mem_exponentChars hexponent

/-- The word that a number is written with is none of the three fixed ones. -/
theorem word?_chars {n : Numeral} (hn : n.Plain) :
    word? (n.chars true) = some (atom (.number n)) := by
  have hread := numeral?_chars hn
  have hne : ∀ w : List Char, numeral? w = none → n.chars true ≠ w := by
    rintro w hw heq
    rw [heq, hw] at hread
    cases hread
  rw [word?, if_neg (hne _ (by decide)), if_neg (hne _ (by decide)), if_neg (hne _ (by decide)),
    hread]
  rfl

/-- **A word spells its token**, and all its characters belong to it. -/
theorem word_chars {token : Token} (h : token.Legible) (hword : token.isWord = true) :
    word? token.chars = some token ∧ ∀ c ∈ token.chars, isWordChar c = true := by
  cases token with
  | atom a =>
      cases a with
      | null => exact ⟨by decide, List.all_eq_true.mp (by decide)⟩
      | bool b => cases b <;> exact ⟨by decide, List.all_eq_true.mp (by decide)⟩
      | number n => exact ⟨word?_chars h, fun c hc => isWordChar_of_mem_chars h hc⟩
      | string s => cases hword
  | _ => cases hword

end Token

/-! ### Running the automaton -/

namespace Scan

/-- The tokens found so far, latest first, if the scan may end or go on here. -/
def settled (s : Scan) : Option (List Token) :=
  match s.mode with
  | .between => some s.tokens
  | .word seen => (Token.word? seen.reverse).map fun token => token :: s.tokens
  | _ => none

variable {s : Scan} {tokens : List Token}

theorem finish_of_settled (h : s.settled = some tokens) : s.finish = some tokens.reverse := by
  obtain ⟨found, mode⟩ := s
  cases mode with
  | between =>
      obtain rfl := Option.some.inj h
      rfl
  | word seen =>
      obtain ⟨token, htoken, rfl⟩ := Option.map_eq_some_iff.mp h
      simp [finish, htoken]
  | _ => cases h

/-- A character that cannot belong to a word starts anew. -/
theorem step_of_settled (h : s.settled = some tokens) {c : Char}
    (hc : Token.isWordChar c = false ∨ s.mode = .between) : s.step c = start tokens c := by
  obtain ⟨found, mode⟩ := s
  cases mode with
  | between =>
      obtain rfl := Option.some.inj h
      rfl
  | word seen =>
      obtain ⟨token, htoken, rfl⟩ := Option.map_eq_some_iff.mp h
      have hother : Token.isWordChar c = false := hc.resolve_right nofun
      simp [step, hother, htoken]
  | _ => cases h

/-- A code unit that stands for a control character. -/
theorem foldlM_hexFour (tokens : List Token) (seen : List Glyph) {n : Nat} (h : n < 0x20) :
    (Token.hexFour n).foldlM step ⟨tokens, .unit seen 3 0⟩ =
      some ⟨tokens, .string (.char (Char.ofNat n) :: seen)⟩ := by
  interval_cases n <;> rfl

/-- **A character of a string is read back**, escaped or not. -/
theorem foldlM_charChars (tokens : List Token) (seen : List Glyph) (c : Char) :
    (Token.charChars c).foldlM step ⟨tokens, .string seen⟩ =
      some ⟨tokens, .string (.char c :: seen)⟩ := by
  unfold Token.charChars
  split_ifs with hquote hbackslash hb hf hn hr ht hcontrol
  any_goals
    subst c
    rfl
  · show (Token.hexFour c.toNat).foldlM step ⟨tokens, .unit seen 3 0⟩ = _
    rw [foldlM_hexFour tokens seen hcontrol, Char.ofNat_toNat]
  · show step _ c >>= _ = _
    simp [step, hquote, hbackslash, hcontrol]

/-- The characters of a string are read back. -/
theorem foldlM_glyphs (tokens : List Token) (seen : List Glyph) (cs : List Char) :
    ((cs.map Glyph.char).flatMap Token.glyphChars).foldlM step ⟨tokens, .string seen⟩ =
      some ⟨tokens, .string ((cs.map Glyph.char).reverse ++ seen)⟩ := by
  induction cs generalizing seen with
  | nil => rfl
  | cons c cs ih =>
      rw [List.map_cons, List.flatMap_cons, List.foldlM_append]
      show (Token.charChars c).foldlM step _ >>= _ = _
      rw [foldlM_charChars]
      show ((cs.map Glyph.char).flatMap Token.glyphChars).foldlM step _ = _
      rw [ih]
      simp

/-- The characters of a word are collected. -/
theorem foldlM_word (tokens : List Token) (seen : List Char) {cs : List Char}
    (h : ∀ c ∈ cs, Token.isWordChar c = true) :
    cs.foldlM step ⟨tokens, .word seen⟩ = some ⟨tokens, .word (cs.reverse ++ seen)⟩ := by
  induction cs generalizing seen with
  | nil => rfl
  | cons c cs ih =>
      obtain ⟨hc, hcs⟩ := List.forall_mem_cons.mp h
      have hstep : step ⟨tokens, .word seen⟩ c = some ⟨tokens, .word (c :: seen)⟩ := by
        simp [step, hc]
      rw [List.foldlM_cons, hstep]
      show cs.foldlM step _ = _
      rw [ih (c :: seen) hcs]
      simp

/-- Blanks after a settled scan change nothing but its mode. -/
theorem foldlM_blanks (h : s.settled = some tokens) {blanks : List Char}
    (hblanks : ∀ c ∈ blanks, Token.isBlank c = true) :
    ∃ s', blanks.foldlM step s = some s' ∧ s'.settled = some tokens ∧
      (blanks ≠ [] ∨ s.mode = .between → s'.mode = .between) := by
  induction blanks generalizing s with
  | nil => exact ⟨s, rfl, h, by simp⟩
  | cons c blanks ih =>
      obtain ⟨hc, hrest⟩ := List.forall_mem_cons.mp hblanks
      have hother : Token.isWordChar c = false := by
        simp only [Token.isBlank, Bool.or_eq_true, beq_iff_eq] at hc
        rcases hc with ((rfl | rfl) | rfl) | rfl <;> decide
      obtain ⟨s', hrun, hsettled, hmode⟩ := ih (s := ⟨tokens, .between⟩) rfl hrest
      refine ⟨s', ?_, hsettled, fun _ => hmode (.inr rfl)⟩
      rw [List.foldlM_cons, step_of_settled h (.inl hother), start, if_pos hc]
      exact hrun

/-- **A token is read back.**  A word must not follow upon another word. -/
theorem foldlM_token (h : s.settled = some tokens) {token : Token} (htoken : token.Legible)
    (hfree : token.isWord = true → s.mode = .between) :
    ∃ s', token.chars.foldlM step s = some s' ∧ s'.settled = some (token :: tokens) ∧
      (token.isWord = false → s'.mode = .between) := by
  by_cases hword : token.isWord = true
  · obtain ⟨hspells, hchars⟩ := Token.word_chars htoken hword
    refine ⟨⟨tokens, .word token.chars.reverse⟩, ?_, ?_, fun hnot => ?_⟩
    · -- The first character starts the word, the others go on with it.
      cases hcs : token.chars with
      | nil =>
          rw [hcs] at hspells
          cases hspells
      | cons c cs =>
          rw [hcs] at hchars
          obtain ⟨hc, hrest⟩ := List.forall_mem_cons.mp hchars
          have hstart : start tokens c = some ⟨tokens, .word [c]⟩ := by
            have hblank : Token.isBlank c = false := by
              by_contra hblank
              simp only [Token.isBlank, Bool.not_eq_false, Bool.or_eq_true, beq_iff_eq] at hblank
              rcases hblank with ((rfl | rfl) | rfl) | rfl <;> exact absurd hc (by decide)
            have hquote : c ≠ '"' := by
              rintro rfl
              exact absurd hc (by decide)
            simp [start, hblank, hquote, hc]
          rw [List.foldlM_cons, step_of_settled h (.inr (hfree hword)), hstart]
          show cs.foldlM step _ = _
          rw [foldlM_word tokens [c] hrest]
          simp
    · simp [settled, hspells]
    · rw [hword] at hnot
      cases hnot
  · cases token with
    | atom a =>
        cases a with
        | string glyphs =>
            obtain ⟨t, rfl⟩ := htoken
            refine ⟨⟨.atom (.string (Glyph.ofText t)) :: tokens, .between⟩, ?_, rfl, fun _ => rfl⟩
            show ('"' :: (Glyph.ofText t).flatMap Token.glyphChars ++ ['"']).foldlM step s = _
            rw [List.cons_append, List.foldlM_cons, step_of_settled h (.inl (by decide))]
            show ((Glyph.ofText t).flatMap Token.glyphChars ++ ['"']).foldlM step
              ⟨tokens, .string []⟩ = _
            rw [List.foldlM_append, Glyph.ofText, foldlM_glyphs]
            show step ⟨tokens, .string ((t.toList.map Glyph.char).reverse ++ [])⟩ '"' >>= _ = _
            simp [step]
        | _ => exact absurd rfl hword
    | _ =>
        refine ⟨⟨_ :: tokens, .between⟩, ?_, rfl, fun _ => rfl⟩
        rw [Token.chars, List.foldlM_cons, step_of_settled h (.inl (by decide))]
        rfl

end Scan

/-! ### Written texts -/

namespace Lexeme

/-- The blanks are blanks, and the token can be spelled. -/
structure Legible (l : Lexeme) : Prop where
  blanks : ∀ c ∈ l.blanks, Token.isBlank c = true
  token : l.token.Legible

/-- The second lexeme does not run into the first: two words have blanks between them. -/
def Apart (a b : Lexeme) : Prop :=
  b.token.isWord = true → b.blanks = [] → a.token.isWord = false

end Lexeme

/-- A lexeme is read back, if it does not run into a word before it. -/
theorem Scan.foldlM_lexeme {s : Scan} {tokens : List Token} (h : s.settled = some tokens)
    {l : Lexeme} (hl : l.Legible)
    (hfree : l.token.isWord = true → l.blanks = [] → s.mode = .between) :
    ∃ s', l.chars.foldlM step s = some s' ∧ s'.settled = some (l.token :: tokens) ∧
      (l.token.isWord = false → s'.mode = .between) := by
  obtain ⟨s₁, hblanks, hsettled, hmode⟩ := foldlM_blanks h hl.blanks
  obtain ⟨s₂, htoken, hrest⟩ := foldlM_token hsettled hl.token fun hword =>
    hmode (or_iff_not_imp_left.mpr fun hnil => hfree hword (not_ne_iff.mp hnil))
  refine ⟨s₂, ?_, hrest⟩
  rw [Lexeme.chars, List.foldlM_append, hblanks]
  exact htoken

/-- The lexemes make a text that can be taken apart again. -/
structure Readable (ls : List Lexeme) : Prop where
  legible : ∀ l ∈ ls, l.Legible
  apart : ls.IsChain Lexeme.Apart

namespace Readable

variable {l : Lexeme} {ls ks : List Lexeme}

theorem nil : Readable [] := ⟨by simp, .nil⟩

theorem singleton (h : l.Legible) : Readable [l] :=
  ⟨fun _ hk => List.mem_singleton.mp hk ▸ h, .singleton l⟩

/-- Anything may follow a token that is no word. -/
theorem cons (h : l.Legible) (hword : l.token.isWord = false) (hls : Readable ls) :
    Readable (l :: ls) where
  legible := List.forall_mem_cons.mpr ⟨h, hls.legible⟩
  apart := List.isChain_cons.mpr ⟨fun _ _ _ _ => hword, hls.apart⟩

/-- A token that is no word may follow anything. -/
theorem append (hls : Readable ls) (hks : Readable ks)
    (hhead : ∀ k ∈ ks.head?, k.token.isWord = false) : Readable (ls ++ ks) where
  legible := List.forall_mem_append.mpr ⟨hls.legible, hks.legible⟩
  apart := List.isChain_append.mpr ⟨hls.apart, hks.apart, fun _ _ k hk hword => by
    rw [hhead k hk] at hword
    cases hword⟩

/-- Running the automaton over a readable text.  The induction is on the lexemes, for
any scan that is settled before the first of them. -/
theorem exists_settled (h : Readable ls) {s : Scan} {tokens : List Token}
    (hs : s.settled = some tokens)
    (hfree : ∀ l ∈ ls.head?, l.token.isWord = true → l.blanks = [] → s.mode = .between) :
    ∃ s', (ls.flatMap Lexeme.chars).foldlM Scan.step s = some s' ∧
      s'.settled = some ((ls.map Lexeme.token).reverse ++ tokens) := by
  induction ls generalizing s tokens with
  | nil => exact ⟨s, rfl, hs⟩
  | cons l ls ih =>
      obtain ⟨hl, hls⟩ := List.forall_mem_cons.mp h.legible
      obtain ⟨hnext, happart⟩ := List.isChain_cons.mp h.apart
      obtain ⟨s₁, hfirst, hsettled, hmode⟩ := Scan.foldlM_lexeme hs hl (hfree l rfl)
      obtain ⟨s₂, hrest, hsettled'⟩ := ih ⟨hls, happart⟩ hsettled fun k hk hword hblanks =>
        hmode (hnext k hk hword hblanks)
      refine ⟨s₂, ?_, by simpa using hsettled'⟩
      rw [List.flatMap_cons, List.foldlM_append, hfirst]
      exact hrest

/-- **The tokens of a written text are read back.** -/
theorem scan?_eq (h : Readable ls) :
    Token.scan? (ls.flatMap Lexeme.chars) = some (ls.map Lexeme.token) := by
  obtain ⟨s, hrun, hsettled⟩ := h.exists_settled (s := ⟨[], .between⟩) rfl fun _ _ _ _ => rfl
  rw [Token.scan?, hrun]
  show s.finish = _
  rw [Scan.finish_of_settled hsettled]
  simp

end Readable

end TypedForest
