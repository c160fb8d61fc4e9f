import TypedForest.Proofs.Path.Identifier

/-!
# Readable paths

The readable form of a path puts property names behind its start, one after the other and
as they are.  So a path that another one continues never reads like it.  Apart from
that, different paths can read alike, since nothing keeps a name from containing the signs
that stand between names.  Paths with plain names are determined by what they read like.

## Main Definitions

* `Path.trail`: what the readable form adds to its start.
* `Path.Step.Plain`: the name in a step has none of the signs that labels use.

## Main Results

* `Path.trail_append_eq_iff`: a longer way does not read like its end.
* `Path.text_injective`: plain paths are determined by their readable forms.
* `Path.label_injective`: and so they are by labels.
-/

namespace TypedForest

namespace Path

/-- What the readable form of a path adds to its start. -/
def trail : Path → String
  | [] => ""
  | s :: path => "." ++ s.text ++ trail path

variable {p q : Path} {start : String}

theorem text_eq (start : String) (p : Path) : p.text start = start ++ p.trail := by
  induction p generalizing start with
  | nil => simp [text, trail]
  | cons s p ih =>
      have hrest : ".".intercalate (s.text :: p.map Step.text) = s.text ++ trail p := ih s.text
      rw [text, List.map_cons, String.intercalate_cons_cons, hrest, trail]
      simp only [String.append_assoc]

/-- The first step may be counted to the start. -/
theorem text_cons (start : String) (s : Step) (p : Path) :
    text start (s :: p) = text (start ++ "." ++ s.text) p := by
  rw [text_eq, text_eq, trail]
  simp only [String.append_assoc]

theorem trail_append (p q : Path) : (p ++ q).trail = p.trail ++ q.trail := by
  induction p with
  | nil => simp [trail]
  | cons s p ih =>
      rw [List.cons_append, trail, trail, ih]
      simp only [String.append_assoc]

/-- **A longer way does not read like its end.** -/
theorem trail_append_eq_iff : (p ++ q).trail = q.trail ↔ p = [] := by
  constructor
  · intro h
    cases p with
    | nil => rfl
    | cons s p =>
        have hlength := congrArg String.length h
        have hdot : ".".length = 1 := rfl
        simp only [trail_append, trail, String.length_append, hdot] at hlength
        omega
  · rintro rfl
    rfl

/-! ### Plain names -/

namespace Step

variable {s t : Step}

/-- The name in the step contains no dot, no bracket that opens, and no at-sign. -/
def Plain (s : Step) : Prop :=
  '.' ∉ s.property.toList ∧ '[' ∉ s.property.toList ∧ '@' ∉ s.property.toList

instance (s : Step) : Decidable s.Plain := inferInstanceAs (Decidable (_ ∧ _ ∧ _))

theorem toList_text (s : Step) :
    s.text.toList = s.property.toList ++
      (s.index.map fun i => '[' :: Nat.toDigits 10 i ++ [']']).getD [] := by
  unfold text
  cases s.index with
  | none => simp
  | some i =>
      show (s.property ++ "[" ++ toString i ++ "]").toList = _
      simp [String.toList_append]

/-- What a place in a list adds to a name is made of brackets and digits. -/
theorem not_mem_text {c : Char} (hname : c ∉ s.property.toList) (hopen : c ≠ '[')
    (hclose : c ≠ ']') (hdigit : c.isDigit = false) : c ∉ s.text.toList := by
  rw [toList_text, List.mem_append, not_or]
  refine ⟨hname, ?_⟩
  cases s.index with
  | none => exact List.not_mem_nil
  | some i =>
      intro hmem
      simp only [Option.map_some, Option.getD_some, List.mem_append, List.mem_cons,
        List.not_mem_nil, or_false] at hmem
      rcases hmem with (rfl | hmem) | rfl
      · exact hopen rfl
      · rw [Nat.isDigit_of_mem_toDigits (by decide) (by decide) hmem] at hdigit
        cases hdigit
      · exact hclose rfl

theorem Plain.dot_not_mem (h : s.Plain) : '.' ∉ s.text.toList :=
  not_mem_text h.1 (by decide) (by decide) (by decide)

theorem Plain.at_not_mem (h : s.Plain) : '@' ∉ s.text.toList :=
  not_mem_text h.2.2 (by decide) (by decide) (by decide)

/-- A plain step is determined by its readable form: the bracket ends the name. -/
theorem text_injective (hs : s.Plain) (ht : t.Plain) (h : s.text = t.text) : s = t := by
  obtain ⟨name, index⟩ := s
  obtain ⟨name', index'⟩ := t
  have hlist := congrArg String.toList h
  rw [toList_text, toList_text] at hlist
  cases index with
  | none =>
      cases index' with
      | none =>
          obtain rfl : name = name' := String.toList_inj.mp (by simpa using hlist)
          rfl
      | some j => exact absurd hs.2.1 (by simp [(by simpa using hlist : name.toList = _)])
  | some i =>
      cases index' with
      | none => exact absurd ht.2.1 (by simp [(by simpa using hlist.symm : name'.toList = _)])
      | some j =>
          simp only [Option.map_some, Option.getD_some, List.cons_append] at hlist
          obtain ⟨hname, hplace⟩ := append_cons_injective hs.2.1 ht.2.1 hlist
          obtain rfl : name = name' := String.toList_inj.mp hname
          obtain rfl : i = j := toDigits_ten_injective (List.append_cancel_right hplace)
          rfl

end Step

theorem toList_text (start : String) (p : Path) :
    (p.text start).toList =
      ['.'].intercalate (start.toList :: p.map fun s => s.text.toList) := by
  rw [text, String.toList_intercalate, List.map_cons, List.map_map]
  rfl

theorem map_text_injective (hp : ∀ s ∈ p, s.Plain) (hq : ∀ s ∈ q, s.Plain)
    (h : p.map (fun s => s.text.toList) = q.map fun s => s.text.toList) : p = q := by
  induction p generalizing q with
  | nil => exact (List.map_eq_nil_iff.mp h.symm).symm
  | cons s p ih =>
      cases q with
      | nil => cases h
      | cons t q =>
          rw [List.forall_mem_cons] at hp hq
          rw [List.map_cons, List.map_cons, List.cons.injEq, String.toList_inj] at h
          rw [Step.text_injective hp.1 hq.1 h.1, ih hp.2 hq.2 h.2]

/-- **Plain paths are determined by their readable forms.** -/
theorem text_injective (hstart : '.' ∉ start.toList) (hp : ∀ s ∈ p, s.Plain)
    (hq : ∀ s ∈ q, s.Plain) (h : p.text start = q.text start) : p = q := by
  have hclean : ∀ r : Path, (∀ s ∈ r, s.Plain) →
      ∀ l ∈ start.toList :: r.map (fun s => s.text.toList), '.' ∉ l := by
    intro r hr l hl
    rcases List.mem_cons.mp hl with rfl | hl
    · exact hstart
    · obtain ⟨s, hs, rfl⟩ := List.mem_map.mp hl
      exact (hr s hs).dot_not_mem
  have hjoined := congrArg String.toList h
  rw [toList_text, toList_text] at hjoined
  have hsplit := congrArg (List.splitOn '.') hjoined
  rw [List.splitOn_intercalate '.' (hclean p hp) (by simp),
    List.splitOn_intercalate '.' (hclean q hq) (by simp), List.cons.injEq] at hsplit
  exact map_text_injective hp hq hsplit.2

theorem at_not_mem_text (hstart : '@' ∉ start.toList) (hp : ∀ s ∈ p, s.Plain) :
    '@' ∉ (p.text start).toList := by
  induction p generalizing start with
  | nil => simpa [text] using hstart
  | cons s p ih =>
      rw [List.forall_mem_cons] at hp
      rw [text_cons]
      refine ih ?_ hp.2
      simp [String.toList_append, hstart, hp.1.at_not_mem]

/-- What stands behind the last occurrence of an item is determined. -/
theorem cons_append_injective {α : Type} {x : α} {l k r s : List α} (hr : x ∉ r) (hs : x ∉ s)
    (h : l ++ x :: r = k ++ x :: s) : r = s := by
  have hreverse := congrArg List.reverse h
  simp only [List.reverse_append, List.reverse_cons, List.append_assoc, List.singleton_append]
    at hreverse
  exact List.reverse_injective
    (append_cons_injective (by simpa using hr) (by simpa using hs) hreverse).1

/-- **Plain paths are determined by labels**, whatever the types are called. -/
theorem label_injective {type type' : String} (hp : ∀ s ∈ p, s.Plain) (hq : ∀ s ∈ q, s.Plain)
    (h : type ++ "@" ++ p.text "root" = type' ++ "@" ++ q.text "root") : p = q := by
  have hlist := congrArg String.toList h
  simp only [String.toList_append, List.append_assoc] at hlist
  have htext : (p.text "root").toList = (q.text "root").toList :=
    cons_append_injective (at_not_mem_text (by decide) hp) (at_not_mem_text (by decide) hq) hlist
  exact text_injective (by decide) hp hq (String.toList_inj.mp htext)

end Path

end TypedForest
