import Mathlib.Data.List.Infix
import QueryPad.Json.Printer
import QueryPad.Regex.Storage

-- What becomes of backslashes when the escapes of a JSON text are halved. The
-- text stays that of a string, and the string loses a backslash wherever two
-- of them stand before a character that is soft.
namespace QueryPad.Regex

-- In JSON text a control character is an escaped letter.
def isSoft (c : Char) : Bool := isEscapable c || c.toNat < 32

def thin : List Char → List Char
  | '\\' :: '\\' :: c :: rest =>
    if isSoft c then '\\' :: c :: thin rest else '\\' :: thin ('\\' :: c :: rest)
  | c :: rest => c :: thin rest
  | [] => []

theorem ne_backslash_of_isSoft {c : Char} (h : isSoft c) : c ≠ '\\' := by
  rintro rfl
  exact absurd h (by decide)

theorem ne_backslash_of_isEscapable {c : Char} (h : isEscapable c) : c ≠ '\\' := by
  rintro rfl
  exact absurd h (by decide)

section Halving

variable {c : Char} {cs rest : List Char}

theorem halveEscapes_cons (h : c ≠ '\\') : halveEscapes (c :: cs) = c :: halveEscapes cs := by
  rw [halveEscapes]
  rintro _ _ rfl
  contradiction

theorem halveEscapes_append (h : '\\' ∉ cs) :
    halveEscapes (cs ++ rest) = cs ++ halveEscapes rest := by
  induction cs with
  | nil => rfl
  | cons c cs ih =>
    rw [List.mem_cons, not_or] at h
    rw [List.cons_append, halveEscapes_cons (Ne.symm h.1), ih h.2, List.cons_append]

-- A backslash stays unless it is the first of four before an escaped character.
theorem halveEscapes_backslash
    (h : ∀ c rest, cs = '\\' :: '\\' :: '\\' :: c :: rest → ¬ isEscapable c) :
    halveEscapes ('\\' :: cs) = '\\' :: halveEscapes cs := by
  rw [halveEscapes.eq_def]
  split
  · next c rest heq =>
    obtain rfl := (List.cons.inj heq).2
    rw [if_neg (h c rest rfl)]
  · next heq =>
    obtain ⟨rfl, rfl⟩ := List.cons.inj heq
    rfl
  · contradiction

theorem halveEscapes_four (h : isEscapable c) :
    halveEscapes ('\\' :: '\\' :: '\\' :: '\\' :: c :: rest) =
      '\\' :: '\\' :: c :: halveEscapes rest := by
  rw [halveEscapes, if_pos h]

end Halving

section Escape

open Json

variable {c : Char} {cs rest : List Char}

theorem escape_control (h : c.toNat < 32) :
    ∃ e more, escape c = '\\' :: e :: more ∧ isEscapable e ∧ '\\' ∉ more := by
  have hhex : ∀ n < 32, '\\' ∉ hexDigits n := by decide
  unfold escape
  split
  · next hc => exact absurd h (by simp [hc])
  · split
    · next hc => exact absurd h (by simp [hc])
    · repeat' split
      all_goals first
        | exact ⟨_, _, rfl, by decide, by simp⟩
        | exact ⟨_, _, rfl, by decide, hhex _ h⟩

theorem escape_plain (hquote : c ≠ '"') (hback : c ≠ '\\') (h : ¬ c.toNat < 32) :
    escape c = [c] := by
  have hcontrol : ∀ d : Char, d.toNat < 32 → c ≠ d := by
    rintro d hd rfl
    contradiction
  rw [escape, if_neg hquote, if_neg hback, if_neg (hcontrol '\n' (by decide)),
    if_neg (hcontrol '\r' (by decide)), if_neg (hcontrol '\t' (by decide)),
    if_neg (hcontrol '\x08' (by decide)), if_neg (hcontrol '\x0c' (by decide)), if_neg h]

-- An escape is one character, or a backslash and more without any.
theorem escape_cases (h : c ≠ '\\') :
    escape c = [c] ∨ ∃ e more, escape c = '\\' :: e :: more ∧ e ≠ '\\' ∧ '\\' ∉ more ∧
      (isEscapable e ↔ isSoft c) := by
  by_cases hquote : c = '"'
  · subst hquote
    exact .inr ⟨'"', [], rfl, by decide, by simp, by decide⟩
  · by_cases hcontrol : c.toNat < 32
    · obtain ⟨e, more, hescape, he, hmore⟩ := escape_control hcontrol
      refine .inr ⟨e, more, hescape, ne_backslash_of_isEscapable he, hmore, ?_⟩
      simp [he, isSoft, hcontrol]
    · exact .inl (escape_plain hquote h hcontrol)

theorem isSoft_iff_of_escape (h : escape c = [c]) : isSoft c ↔ isEscapable c := by
  have hcontrol : ¬ c.toNat < 32 := by
    intro hc
    obtain ⟨e, more, hescape, _⟩ := escape_control hc
    simp [h] at hescape
  simp [isSoft, hcontrol]

theorem halveEscapes_escape (h : c ≠ '\\') :
    halveEscapes (escape c ++ rest) = escape c ++ halveEscapes rest := by
  rcases escape_cases h with hescape | ⟨e, more, hescape, he, hmore, _⟩
  · rw [hescape]
    exact halveEscapes_cons h
  · rw [hescape, List.cons_append, halveEscapes_backslash (by simp [he]), List.cons_append,
      halveEscapes_cons he, halveEscapes_append hmore, List.cons_append, List.cons_append]

-- Two backslashes are one in the string, and one is not enough.
theorem halveEscapes_lone (h : c ≠ '\\') :
    halveEscapes ('\\' :: '\\' :: (escape c ++ rest)) =
      '\\' :: '\\' :: halveEscapes (escape c ++ rest) := by
  rcases escape_cases h with hescape | ⟨e, more, hescape, he, _⟩
  · rw [hescape]
    rw [halveEscapes_backslash (by simp [h]), halveEscapes_backslash (by simp [h])]
  · rw [hescape]
    rw [halveEscapes_backslash (by simp [he]), halveEscapes_backslash (by simp [he])]

theorem halveEscapes_pair (h : isSoft c) :
    halveEscapes ('\\' :: '\\' :: '\\' :: '\\' :: (escape c ++ rest)) =
      '\\' :: '\\' :: (escape c ++ halveEscapes rest) := by
  rcases escape_cases (ne_backslash_of_isSoft h) with hescape | ⟨e, more, hescape, he, hmore, hsoft⟩
  · rw [hescape]
    exact halveEscapes_four ((isSoft_iff_of_escape hescape).mp h)
  · rw [hescape, List.cons_append, halveEscapes_backslash, List.cons_append,
      halveEscapes_four (hsoft.mpr h), halveEscapes_append hmore, List.cons_append,
      List.cons_append]
    rintro _ _ heq
    simp only [List.cons.injEq, true_and] at heq
    rw [← heq.1]
    decide

theorem halveEscapes_hardPair (hback : c ≠ '\\') (h : ¬ isSoft c) :
    halveEscapes ('\\' :: '\\' :: '\\' :: '\\' :: (escape c ++ rest)) =
      '\\' :: '\\' :: halveEscapes ('\\' :: '\\' :: (escape c ++ rest)) := by
  rcases escape_cases hback with hescape | ⟨e, more, hescape, he, _, hsoft⟩
  · have hhard : ¬ isEscapable c := fun hc => h ((isSoft_iff_of_escape hescape).mpr hc)
    rw [hescape, halveEscapes_backslash (by simp [hhard]), halveEscapes_backslash (by simp [hback])]
  · rw [hescape, halveEscapes_backslash (by simp [isEscapable]),
      halveEscapes_backslash (by simp [show ¬ isEscapable e from fun hc => h (hsoft.mp hc)])]

theorem escape_backslash : escape '\\' = ['\\', '\\'] := rfl

theorem body_backslash (cs rest : List Char) :
    ('\\' :: cs).flatMap escape ++ rest = '\\' :: '\\' :: (cs.flatMap escape ++ rest) := by
  rw [List.flatMap_cons, escape_backslash, List.append_assoc, List.cons_append, List.cons_append,
    List.nil_append]

theorem body_cons (c : Char) (cs rest : List Char) :
    (c :: cs).flatMap escape ++ rest = escape c ++ (cs.flatMap escape ++ rest) := by
  rw [List.flatMap_cons, List.append_assoc]

-- Halving the text of a string gives the text of the thinned string.
theorem halveEscapes_body (cs rest : List Char) :
    halveEscapes (cs.flatMap escape ++ '"' :: rest) =
      (thin cs).flatMap escape ++ '"' :: halveEscapes rest := by
  fun_induction thin cs with
  | case1 c cs hsoft ih =>
    rw [body_backslash, body_backslash, body_cons, halveEscapes_pair hsoft, ih, body_backslash,
      body_cons]
  | case2 c cs hsoft ih =>
    rw [body_backslash (thin _), ← ih, body_backslash, body_backslash]
    by_cases hback : c = '\\'
    · -- of six backslashes the first two stay
      rw [hback, body_backslash, halveEscapes_backslash, halveEscapes_backslash]
      all_goals
        rintro _ _ heq
        simp only [List.cons.injEq, true_and] at heq
        rw [← heq.1]
        decide
    · rw [body_cons, halveEscapes_hardPair hback hsoft]
  | case3 c cs hrun ih =>
    by_cases hback : c = '\\'
    · subst hback
      rw [body_backslash, body_backslash, ← ih]
      cases cs with
      | nil => rw [halveEscapes_backslash, halveEscapes_backslash] <;> simp
      | cons d cs =>
        by_cases hlast : d = '\\'
        · subst hlast
          cases cs with
          | nil =>
            rw [body_backslash, halveEscapes_backslash, halveEscapes_backslash]
            all_goals simp [isEscapable]
          | cons e cs => exact absurd rfl (hrun e cs rfl)
        · rw [body_cons, halveEscapes_lone hlast]
    · rw [body_cons, halveEscapes_escape hback, ih, body_cons]
  | case4 => exact halveEscapes_cons (by decide)

end Escape

section Thinning

variable {c : Char} {cs : List Char}

theorem thin_soft (h : isSoft c) : thin ('\\' :: '\\' :: c :: cs) = '\\' :: c :: thin cs := by
  rw [thin, if_pos h]

theorem thin_cons (h : ∀ d rest, c :: cs = '\\' :: '\\' :: d :: rest → ¬ isSoft d) :
    thin (c :: cs) = c :: thin cs := by
  rw [thin.eq_def]
  split
  · next d rest heq =>
    obtain ⟨rfl, rfl⟩ := List.cons.inj heq
    rw [if_neg (h d rest rfl)]
  · next heq =>
    obtain ⟨rfl, rfl⟩ := List.cons.inj heq
    rfl
  · contradiction

-- What holds no two backslashes before a soft character is left as it is.
theorem thin_eq_self_iff :
    thin cs = cs ↔ ∀ c, ['\\', '\\', c] <:+: cs → ¬ isSoft c := by
  fun_induction thin cs with
  | case1 c cs hsoft ih =>
    have hback := ne_backslash_of_isSoft hsoft
    simp only [List.cons.injEq, true_and, hback, false_and, false_iff, not_forall, not_not]
    exact ⟨c, ⟨[], cs, rfl⟩, hsoft⟩
  | case2 c cs hsoft ih =>
    simp only [List.cons.injEq, true_and, ih, @List.infix_cons_iff _ _ '\\' ('\\' :: _),
      or_imp, forall_and, List.cons_prefix_cons, List.nil_prefix, and_true]
    exact ⟨fun h => ⟨by rintro _ rfl; exact hsoft, h⟩, fun h => h.2⟩
  | case3 c cs hrun ih =>
    simp only [List.cons.injEq, true_and, ih, List.infix_cons_iff (a := c), or_imp, forall_and]
    refine ⟨fun h => ⟨?_, h⟩, fun h => h.2⟩
    rintro d ⟨rest, heq⟩
    obtain ⟨rfl, rfl⟩ := List.cons.inj heq
    exact absurd rfl (hrun d rest rfl)
  | case4 => simp

end Thinning

-- What a literal keeps of its pattern: the first escape is doubled in the text
-- that is read back.
def stored (pattern : List Char) : List Char := thin (doubleFirstEscape pattern)

def HasEscape (pattern : List Char) : Prop := ∃ c, isEscapable c ∧ ['\\', c] <:+: pattern

-- No two backslashes stand before a soft character, but perhaps in front of
-- the first escaped one.
def SparesEscapes (pattern : List Char) : Prop :=
  ∀ before c after, pattern = before ++ '\\' :: '\\' :: c :: after → isSoft c →
    isEscapable c ∧ ¬ HasEscape before

theorem sparesEscapes_first {c : Char} {rest : List Char} (h : isEscapable c) :
    SparesEscapes ('\\' :: c :: rest) ↔ thin rest = rest := by
  have hback := ne_backslash_of_isEscapable h
  rw [thin_eq_self_iff]
  constructor
  · rintro hspares d ⟨before, after, rfl⟩ hsoft
    refine (hspares ('\\' :: c :: before) d after (by simp) hsoft).2 ⟨c, h, ?_⟩
    exact ⟨[], before, rfl⟩
  · rintro hthin before d after heq hsoft
    match before with
    | [] => simp [hback] at heq
    | [_] => simp [hback] at heq
    | _ :: _ :: before =>
      simp only [List.cons_append, List.cons.injEq] at heq
      obtain ⟨rfl, rfl, rfl⟩ := heq
      exact absurd hsoft (hthin d ⟨before, after, by simp⟩)

theorem sparesEscapes_cons {c : Char} {rest : List Char}
    (h : c = '\\' → ∀ d ∈ rest.head?, ¬ isEscapable d) :
    SparesEscapes (c :: rest) ↔
      (∀ d after, c :: rest = '\\' :: '\\' :: d :: after → isSoft d → isEscapable d) ∧
        SparesEscapes rest := by
  constructor
  · intro hspares
    refine ⟨fun d after heq hsoft => (hspares [] d after heq hsoft).1, ?_⟩
    rintro before d after rfl hsoft
    obtain ⟨hd, hnone⟩ := hspares (c :: before) d after rfl hsoft
    refine ⟨hd, ?_⟩
    rintro ⟨e, he, hinfix⟩
    exact hnone ⟨e, he, List.infix_cons hinfix⟩
  · rintro ⟨hfirst, hrest⟩ before d after heq hsoft
    cases before with
    | nil =>
      refine ⟨hfirst d after heq hsoft, ?_⟩
      rintro ⟨e, _, hinfix⟩
      simp at hinfix
    | cons x before =>
      obtain ⟨rfl, rfl⟩ := List.cons.inj heq
      obtain ⟨hd, hnone⟩ := hrest before d after rfl hsoft
      refine ⟨hd, ?_⟩
      rintro ⟨e, he, hinfix⟩
      rcases List.infix_cons_iff.mp hinfix with hfirst | hinfix
      · -- an escape across the front would be the first one
        obtain ⟨more, heq⟩ := hfirst
        obtain ⟨rfl, rfl⟩ := List.cons.inj heq
        exact h rfl e rfl he
      · exact hnone ⟨e, he, hinfix⟩

theorem head?_doubleFirstEscape (pattern : List Char) :
    (doubleFirstEscape pattern).head? = pattern.head? := by
  fun_cases doubleFirstEscape pattern <;> rfl

-- The escape that is doubled starts with two backslashes, and any other is as
-- it was.
theorem doubleFirstEscape_soft_iff {pattern : List Char} {d : Char} (hsoft : isSoft d) :
    (∃ rest, doubleFirstEscape pattern = '\\' :: d :: rest) ↔
      ∃ after, pattern = '\\' :: d :: after ∧ ¬ isEscapable d := by
  have hback := ne_backslash_of_isSoft hsoft
  have hhead : ∀ cs, (∃ rest, doubleFirstEscape cs = d :: rest) ↔ ∃ after, cs = d :: after := by
    intro cs
    simp only [← List.head?_eq_some_iff, head?_doubleFirstEscape]
  fun_cases doubleFirstEscape pattern with
  | case1 c cs hc =>
    simp only [List.cons.injEq, true_and, hback.symm, false_and, exists_false, false_iff]
    rintro ⟨_, ⟨rfl, _⟩, hd⟩
    contradiction
  | case2 c cs hc =>
    simp only [List.cons.injEq, true_and, hhead]
    constructor
    · rintro ⟨_, rfl, rfl⟩
      exact ⟨cs, ⟨rfl, rfl⟩, hc⟩
    · rintro ⟨_, ⟨rfl, rfl⟩, _⟩
      exact ⟨cs, rfl, rfl⟩
  | case3 c cs hpair =>
    constructor
    · rintro ⟨rest, heq⟩
      obtain ⟨rfl, hcs⟩ := List.cons.inj heq
      obtain ⟨after, rfl⟩ := (hhead cs).mp ⟨rest, hcs⟩
      exact absurd rfl (hpair d after rfl)
    · rintro ⟨after, heq, _⟩
      obtain ⟨rfl, rfl⟩ := List.cons.inj heq
      exact absurd rfl (hpair d after rfl)
  | case4 => simp

-- A step in front of the first escape.
theorem stored_cons {c : Char} {rest : List Char}
    (hdouble : doubleFirstEscape (c :: rest) = c :: doubleFirstEscape rest)
    (h : c = '\\' → ∀ d ∈ rest.head?, ¬ isEscapable d)
    (ih : stored rest = rest ↔ SparesEscapes rest) :
    stored (c :: rest) = c :: rest ↔ SparesEscapes (c :: rest) := by
  rw [sparesEscapes_cons h, ← ih, stored, stored, hdouble]
  by_cases hpair : ∃ d after, c :: doubleFirstEscape rest = '\\' :: '\\' :: d :: after ∧ isSoft d
  · obtain ⟨d, after, heq, hsoft⟩ := hpair
    obtain ⟨rfl, hrest⟩ := List.cons.inj heq
    obtain ⟨after, rfl, hd⟩ := (doubleFirstEscape_soft_iff hsoft).mp ⟨after, hrest⟩
    rw [hrest, thin_soft hsoft]
    simp [ne_backslash_of_isSoft hsoft, hsoft, hd]
  · simp only [not_exists, not_and] at hpair
    rw [thin_cons hpair, List.cons.injEq]
    refine ⟨fun hthin => ⟨?_, hthin.2⟩, fun hthin => ⟨rfl, hthin.2⟩⟩
    rintro d after heq hsoft
    by_contra hd
    obtain ⟨rfl, rfl⟩ := List.cons.inj heq
    obtain ⟨more, hmore⟩ := (doubleFirstEscape_soft_iff hsoft).mpr ⟨after, rfl, hd⟩
    exact hpair d more (by rw [hmore]) hsoft

-- A pattern is kept as it is written exactly if it spares its escapes.
theorem stored_eq_self_iff (pattern : List Char) :
    stored pattern = pattern ↔ SparesEscapes pattern := by
  fun_induction doubleFirstEscape pattern with
  | case1 c rest hc =>
    rw [sparesEscapes_first hc, stored, doubleFirstEscape, if_pos hc,
      thin_soft (by simp [isSoft, hc])]
    simp
  | case2 c rest hc ih =>
    exact stored_cons (by rw [doubleFirstEscape, if_neg hc]) (by simpa using hc) ih
  | case3 c rest hpair ih =>
    refine stored_cons (by rw [doubleFirstEscape]; exact hpair) ?_ ih
    rintro rfl
    cases rest with
    | nil => simp
    | cons d rest => exact absurd rfl (hpair d rest rfl)
  | case4 =>
    simp only [stored, doubleFirstEscape, thin, true_iff]
    rintro before c after heq
    simp at heq

end QueryPad.Regex
