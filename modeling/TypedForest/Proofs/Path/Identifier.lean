import Mathlib.Data.List.Basic
import TypedForest.Forest.Path

/-!
# Identifiers determine paths

The identifier of a path is a code in two levels.  Characters of a property name
that are not letters (or digits after the first place) are escaped, and the
encoded names and the places in lists are joined by underscores.  Both levels can
be read back: no code of a character begins another, no segment contains an
underscore, and a segment starts with a digit exactly if it is a place in a list.

## Main Definitions

* `Path.Step.code`: the code of one character.
* `Path.Step.segments`: what lies between the underscores.

## Main Results

* `Path.Step.encode_injective`: names are determined by their codes.
* `Path.identifier_injective`: paths are determined by their identifiers.
* `Path.mem_identifier`: the characters of identifiers.
-/

namespace TypedForest

/-! ### Hexadecimal digits -/

/-- A digit of a number stands for a remainder. -/
theorem mem_toDigits {b : Nat} (hb : 1 < b) {n : Nat} {c : Char} (hc : c ∈ Nat.toDigits b n) :
    ∃ k, k < b ∧ c = k.digitChar := by
  induction n using Nat.strongRecOn with
  | ind n ih =>
      rw [Nat.toDigits_eq_if hb] at hc
      split at hc
      case isTrue hlt => exact ⟨n, hlt, List.mem_singleton.mp hc⟩
      case isFalse hle =>
        rcases List.mem_append.mp hc with hc | hc
        · exact ih (n / b) (Nat.div_lt_self (by omega) hb) hc
        · exact ⟨n % b, Nat.mod_lt n (by omega), List.mem_singleton.mp hc⟩

theorem digitChar_injective : ∀ i < 16, ∀ j < 16, i.digitChar = j.digitChar → i = j := by
  decide

/-- A number is determined by its hexadecimal digits. -/
theorem toDigits_injective {n k : Nat} (h : Nat.toDigits 16 n = Nat.toDigits 16 k) : n = k := by
  induction n using Nat.strongRecOn generalizing k with
  | ind n ih =>
      rw [Nat.toDigits_eq_if (n := n) (by decide), Nat.toDigits_eq_if (n := k) (by decide)] at h
      split at h
      case isTrue hn =>
        split at h
        case isTrue hk => exact digitChar_injective n hn k hk (by simpa using h)
        case isFalse hk =>
          have hlen := congrArg List.length h
          simp [Nat.toDigits_ne_nil] at hlen
      case isFalse hn =>
        split at h
        case isTrue hk =>
          have hlen := congrArg List.length h
          simp [Nat.toDigits_ne_nil] at hlen
        case isFalse hk =>
          obtain ⟨hhigh, hlow⟩ := List.append_inj' h rfl
          have hdiv := ih (n / 16) (by omega) hhigh
          have hmod : n % 16 = k % 16 :=
            digitChar_injective _ (by omega) _ (by omega) (by simpa using hlow)
          omega

theorem isAlphanum_digitChar : ∀ k < 16, k.digitChar.isAlphanum = true := by
  decide

theorem hyphen_not_mem_toDigits (n : Nat) : '-' ∉ Nat.toDigits 16 n := by
  intro hmem
  obtain ⟨k, hk, heq⟩ := mem_toDigits (by decide) hmem
  have halnum := isAlphanum_digitChar k hk
  rw [← heq] at halnum
  exact absurd halnum (by decide)

/-- What stands before the first occurrence of an item is determined. -/
theorem append_cons_injective {α : Type} {x : α} {l k r s : List α} (hl : x ∉ l) (hk : x ∉ k)
    (h : l ++ x :: r = k ++ x :: s) : l = k ∧ r = s := by
  induction l generalizing k with
  | nil =>
      cases k with
      | nil => exact ⟨rfl, by simpa using h⟩
      | cons b k =>
          simp only [List.nil_append, List.cons_append, List.cons.injEq] at h
          exact absurd (List.mem_cons.mpr (.inl h.1)) hk
  | cons a l ih =>
      cases k with
      | nil =>
          simp only [List.nil_append, List.cons_append, List.cons.injEq] at h
          exact absurd (List.mem_cons.mpr (.inl h.1.symm)) hl
      | cons b k =>
          simp only [List.cons_append, List.cons.injEq] at h
          obtain ⟨rfl, h⟩ := h
          obtain ⟨rfl, hrest⟩ := ih (fun hx => hl (List.mem_cons_of_mem _ hx))
            (fun hx => hk (List.mem_cons_of_mem _ hx)) h
          exact ⟨rfl, hrest⟩

namespace Path.Step

/-! ### Encoded names -/

/-- The code of a character: itself if it is a literal, an escape otherwise. -/
def code (literal : Char → Bool) (c : Char) : List Char :=
  if literal c then [c] else encodeChar c

@[simp] theorem encodeRest_nil : encodeRest [] = [] := rfl

@[simp] theorem encode_nil : encode [] = [] := rfl

theorem encodeRest_cons (c : Char) (cs : List Char) :
    encodeRest (c :: cs) = code Char.isAlphanum c ++ encodeRest cs := rfl

theorem encode_cons (c : Char) (cs : List Char) :
    encode (c :: cs) = code Char.isAlpha c ++ encodeRest cs := rfl

/-- Hyphens are no literals, so the code of a character can be told from what
follows it. -/
theorem code_append_injective {literal : Char → Bool} (hhyphen : literal '-' = false)
    {c d : Char} {r s : List Char} (h : code literal c ++ r = code literal d ++ s) :
    c = d ∧ r = s := by
  have hne : ∀ {e : Char}, literal e = true → e ≠ '-' := by
    rintro e he rfl
    rw [hhyphen] at he
    cases he
  unfold code at h
  split at h
  case isTrue hc =>
    split at h
    case isTrue hd => simpa using h
    case isFalse hd =>
      simp only [encodeChar, List.cons_append, List.nil_append, List.cons.injEq] at h
      exact absurd h.1 (hne hc)
  case isFalse hc =>
    split at h
    case isTrue hd =>
      simp only [encodeChar, List.cons_append, List.nil_append, List.cons.injEq] at h
      exact absurd h.1.symm (hne hd)
    case isFalse hd =>
      simp only [encodeChar, List.cons_append, List.append_assoc, List.nil_append,
        List.cons.injEq, true_and] at h
      obtain ⟨hdigits, hrest⟩ := append_cons_injective (hyphen_not_mem_toDigits _)
        (hyphen_not_mem_toDigits _) h
      exact ⟨Char.toNat_inj.mp (toDigits_injective hdigits), hrest⟩

theorem code_ne_nil (literal : Char → Bool) (c : Char) : code literal c ≠ [] := by
  unfold code encodeChar
  split <;> simp

theorem encodeRest_injective {cs ds : List Char} (h : encodeRest cs = encodeRest ds) :
    cs = ds := by
  induction cs generalizing ds with
  | nil =>
      cases ds with
      | nil => rfl
      | cons d ds => exact absurd h.symm (by simp [encodeRest_cons, code_ne_nil])
  | cons c cs ih =>
      cases ds with
      | nil => exact absurd h (by simp [encodeRest_cons, code_ne_nil])
      | cons d ds =>
          rw [encodeRest_cons, encodeRest_cons] at h
          obtain ⟨rfl, hrest⟩ := code_append_injective (by decide) h
          rw [ih hrest]

/-- **A name is determined by its code.** -/
theorem encode_injective {cs ds : List Char} (h : encode cs = encode ds) : cs = ds := by
  cases cs with
  | nil =>
      cases ds with
      | nil => rfl
      | cons d ds => exact absurd h.symm (by simp [encode_cons, code_ne_nil])
  | cons c cs =>
      cases ds with
      | nil => exact absurd h (by simp [encode_cons, code_ne_nil])
      | cons d ds =>
          rw [encode_cons, encode_cons] at h
          obtain ⟨rfl, hrest⟩ := code_append_injective (by decide) h
          rw [encodeRest_injective hrest]

/-- The code of a character is made of letters, digits and hyphens. -/
theorem mem_code {literal : Char → Bool} (hliteral : ∀ c, literal c = true → c.isAlphanum = true)
    {c d : Char} (hd : d ∈ code literal c) : d.isAlphanum = true ∨ d = '-' := by
  unfold code encodeChar at hd
  split at hd
  case isTrue hc =>
    obtain rfl := List.mem_singleton.mp hd
    exact .inl (hliteral d hc)
  case isFalse =>
    simp only [List.cons_append, List.mem_cons, List.mem_append, List.not_mem_nil,
      or_false] at hd
    rcases hd with rfl | hdigit | rfl
    · exact .inr rfl
    · obtain ⟨k, hk, rfl⟩ := mem_toDigits (by decide) hdigit
      exact .inl (isAlphanum_digitChar k hk)
    · exact .inr rfl

theorem mem_encodeRest {cs : List Char} {d : Char} (hd : d ∈ encodeRest cs) :
    d.isAlphanum = true ∨ d = '-' := by
  obtain ⟨c, -, hd⟩ := List.mem_flatMap.mp hd
  exact mem_code (fun _ h => h) (c := c) hd

/-- An encoded name is made of letters, digits and hyphens. -/
theorem mem_encode {cs : List Char} {d : Char} (hd : d ∈ encode cs) :
    d.isAlphanum = true ∨ d = '-' := by
  cases cs with
  | nil => cases hd
  | cons c cs =>
      rw [encode_cons] at hd
      rcases List.mem_append.mp hd with hd | hd
      · exact mem_code (fun c h => by simp [Char.isAlphanum, h]) hd
      · exact mem_encodeRest hd

theorem isDigit_of_isAlpha {c : Char} (hc : c.isAlpha = true) : c.isDigit = false := by
  change (decide (c.val ≥ 'A'.val ∧ c.val ≤ 'Z'.val) ||
    decide (c.val ≥ 'a'.val) && decide (c.val ≤ 'z'.val)) = true at hc
  simp only [Bool.or_eq_true, Bool.and_eq_true, decide_eq_true_eq, ge_iff_le,
    UInt32.le_iff_toNat_le, Char.toNat_val] at hc
  rw [← Bool.not_eq_true, Char.isDigit_iff_toNat]
  have hA : 'A'.val.toNat = 65 := rfl
  have ha : 'a'.val.toNat = 97 := rfl
  have h9 : '9'.toNat = 57 := rfl
  simp only [Char.toNat_val] at hA ha
  omega

/-- An encoded name does not start with a digit. -/
theorem head?_encode (cs : List Char) {d : Char} (hd : (encode cs).head? = some d) :
    d.isDigit = false := by
  cases cs with
  | nil => cases hd
  | cons c cs =>
      rw [encode_cons, code] at hd
      split at hd
      case isTrue hc =>
        obtain rfl : c = d := by simpa using hd
        exact isDigit_of_isAlpha hc
      case isFalse =>
        obtain rfl : '-' = d := by simpa [encodeChar] using hd
        decide

/-! ### Segments -/

/-- What stands between the underscores: the encoded name, and the place in a
list. -/
def segments (s : Step) : List (List Char) :=
  encode s.property.toList :: s.index.toList.map (Nat.toDigits 10)

theorem segments_ne_nil (s : Step) : s.segments ≠ [] := by
  simp [segments]

theorem toList_identifier (s : Step) :
    s.identifier.toList = ['_'].intercalate s.segments := by
  unfold identifier segments
  cases s.index with
  | none => simp
  | some i =>
      show (String.ofList (encode s.property.toList) ++ "_" ++ toString i).toList = _
      simp [String.toList_append]

theorem underscore_not_mem_segments {s : Step} {l : List Char} (hl : l ∈ s.segments) :
    '_' ∉ l := by
  intro hmem
  rcases List.mem_cons.mp hl with rfl | hl
  · exact absurd (mem_encode hmem) (by decide)
  · obtain ⟨i, -, rfl⟩ := List.mem_map.mp hl
    exact Nat.underscore_not_in_toDigits hmem

/-- A name is never taken for a place in a list. -/
theorem encode_ne_toDigits (cs : List Char) (i : Nat) : encode cs ≠ Nat.toDigits 10 i := by
  intro h
  obtain ⟨d, ds, hds⟩ := List.exists_cons_of_ne_nil (Nat.toDigits_ne_nil (n := i) (b := 10))
  have hdigit : d.isDigit = true :=
    Nat.isDigit_of_mem_toDigits (by decide) (by decide) (n := i) (hds ▸ List.mem_cons_self)
  have hhead : d.isDigit = false := head?_encode cs (by rw [h, hds]; rfl)
  rw [hdigit] at hhead
  cases hhead

theorem toDigits_ten_injective {i j : Nat} (h : Nat.toDigits 10 i = Nat.toDigits 10 j) :
    i = j := by
  have hread := congrArg (fun l => Nat.ofDigitChars 10 l 0) h
  simpa using hread

end Path.Step

namespace Path

open Path.Step

/-- **A path is determined by its segments.**  After a name, a segment that starts
with a digit is a place in a list, and any other starts the next step. -/
theorem segments_injective {p q : Path} (h : p.flatMap segments = q.flatMap segments) :
    p = q := by
  induction p generalizing q with
  | nil =>
      cases q with
      | nil => rfl
      | cons t q => simp [segments] at h
  | cons s p ih =>
      cases q with
      | nil => simp [segments] at h
      | cons t q =>
          obtain ⟨name, index⟩ := s
          obtain ⟨name', index'⟩ := t
          simp only [List.flatMap_cons, segments, List.cons_append, List.cons.injEq] at h
          obtain ⟨hname, h⟩ := h
          obtain rfl : name = name' := String.toList_injective (encode_injective hname)
          cases index with
          | none =>
              cases index' with
              | none => rw [ih (by simpa using h)]
              | some j =>
                  cases p with
                  | nil => simp at h
                  | cons u p =>
                      simp only [Option.toList_none, List.map_nil, List.nil_append,
                        List.flatMap_cons, segments, List.cons_append, Option.toList_some,
                        List.map_cons, List.cons.injEq] at h
                      exact absurd h.1 (encode_ne_toDigits _ _)
          | some i =>
              cases index' with
              | none =>
                  cases q with
                  | nil => simp at h
                  | cons u q =>
                      simp only [Option.toList_none, List.map_nil, List.nil_append,
                        List.flatMap_cons, segments, List.cons_append, Option.toList_some,
                        List.map_cons, List.cons.injEq] at h
                      exact absurd h.1.symm (encode_ne_toDigits _ _)
              | some j =>
                  simp only [Option.toList_some, List.map_cons, List.map_nil, List.cons_append,
                    List.nil_append, List.cons.injEq] at h
                  rw [toDigits_ten_injective h.1, ih h.2]

theorem intercalate_append {α : Type} (sep : List α) {ps rest : List (List α)}
    (hps : ps ≠ []) (hrest : rest ≠ []) :
    sep.intercalate (ps ++ rest) = sep.intercalate ps ++ sep ++ sep.intercalate rest := by
  induction ps with
  | nil => exact absurd rfl hps
  | cons p ps ih =>
      cases ps with
      | nil => simp [List.intercalate_cons_of_ne_nil hrest]
      | cons p' ps =>
          have htail := ih (by simp)
          simp only [List.cons_append] at htail ⊢
          rw [List.intercalate_cons_cons, List.intercalate_cons_cons, htail]
          simp only [List.append_assoc]

/-- Joining joined parts is joining all parts. -/
theorem intercalate_flatMap {α β : Type} (sep : List β) {parts : α → List (List β)}
    (hparts : ∀ a, parts a ≠ []) (l : List β) (as : List α) :
    sep.intercalate (l :: as.map fun a => sep.intercalate (parts a)) =
      sep.intercalate (l :: as.flatMap parts) := by
  induction as generalizing l with
  | nil => rfl
  | cons a as ih =>
      have hrest : parts a ++ as.flatMap parts ≠ [] := by simp [hparts]
      rw [List.map_cons, List.intercalate_cons_cons, ih, List.flatMap_cons,
        List.intercalate_cons_of_ne_nil hrest]
      congr 1
      by_cases hnil : as.flatMap parts = []
      · simp [hnil]
      · rw [List.intercalate_cons_of_ne_nil hnil, intercalate_append sep (hparts a) hnil]

theorem toList_identifier (p : Path) :
    p.identifier.toList = ['_'].intercalate ("root".toList :: p.flatMap segments) := by
  rw [identifier, String.toList_intercalate, List.map_cons, List.map_map,
    ← intercalate_flatMap _ segments_ne_nil]
  congr 2
  refine List.map_congr_left fun s _ => ?_
  exact s.toList_identifier

/-- **Paths are determined by their identifiers.** -/
theorem identifier_injective {p q : Path} (h : p.identifier = q.identifier) : p = q := by
  have hclean : ∀ (r : Path), ∀ l ∈ "root".toList :: r.flatMap segments, '_' ∉ l := by
    intro r l hl
    rcases List.mem_cons.mp hl with rfl | hl
    · decide
    · obtain ⟨s, -, hs⟩ := List.mem_flatMap.mp hl
      exact underscore_not_mem_segments hs
  have hjoined := congrArg String.toList h
  rw [toList_identifier, toList_identifier] at hjoined
  have hsplit := congrArg (List.splitOn '_') hjoined
  rw [List.splitOn_intercalate '_' (hclean p) (by simp),
    List.splitOn_intercalate '_' (hclean q) (by simp), List.cons.injEq] at hsplit
  exact segments_injective hsplit.2

/-- Identifiers are made of letters, digits, hyphens and underscores. -/
theorem mem_identifier {p : Path} {c : Char} (hc : c ∈ p.identifier.toList) :
    c.isAlphanum = true ∨ c = '_' ∨ c = '-' := by
  rw [toList_identifier] at hc
  have hsegment : ∀ l ∈ "root".toList :: p.flatMap segments, ∀ d ∈ l,
      d.isAlphanum = true ∨ d = '-' := by
    intro l hl
    rcases List.mem_cons.mp hl with rfl | hl
    · intro d hd
      have hroot : ("root".toList.all fun d => d.isAlphanum || d == '-') = true := rfl
      simpa using List.all_eq_true.mp hroot d hd
    · obtain ⟨s, -, hs⟩ := List.mem_flatMap.mp hl
      rcases List.mem_cons.mp hs with rfl | hs
      · exact fun d hd => mem_encode hd
      · obtain ⟨i, -, rfl⟩ := List.mem_map.mp hs
        intro d hd
        have hdigit := Nat.isDigit_of_mem_toDigits (by decide) (by decide) hd
        exact .inl (by simp [Char.isAlphanum, hdigit])
  generalize "root".toList :: p.flatMap segments = ls at hc hsegment
  induction ls with
  | nil => simp at hc
  | cons l ls ih =>
      have hl : c ∈ l → c.isAlphanum = true ∨ c = '_' ∨ c = '-' := fun h =>
        (hsegment l List.mem_cons_self c h).imp_right .inr
      by_cases hnil : ls = []
      · subst hnil
        exact hl (by simpa using hc)
      · rw [List.intercalate_cons_of_ne_nil hnil] at hc
        simp only [List.mem_append, List.mem_singleton] at hc
        rcases hc with (hc | rfl) | hc
        · exact hl hc
        · exact .inr (.inl rfl)
        · exact ih hc fun k hk => hsegment k (List.mem_cons_of_mem _ hk)

end Path

end TypedForest
