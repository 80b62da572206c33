import KernelIR.Number.Real
import KernelIR.Proofs.Number.Literal
import KernelIR.Proofs.Number.Rounding
import Mathlib.Data.List.TakeWhile
import Mathlib.Tactic.IntervalCases

namespace KernelIR.Number

/-- The digits before and after the point of a literal. There is no need for either, but for one of
them. -/
inductive Mantissa (base : Nat) (Whole : List Char → List Nat → Prop) :
    List Char → List Nat → List Nat → Prop where
  | whole {cs : List Char} {ws : List Nat} (digits : Whole cs ws) : Mantissa base Whole cs ws []
  | point {cs : List Char} {ws : List Nat} (digits : Whole cs ws) :
      Mantissa base Whole (cs ++ ['.']) ws []
  | both {cs cs' : List Char} {ws fs : List Nat} (digits : Whole cs ws)
      (decimals : Digits base cs' fs) : Mantissa base Whole (cs ++ '.' :: cs') ws fs
  | fraction {cs : List Char} {fs : List Nat} (decimals : Digits base cs fs) :
      Mantissa base Whole ('.' :: cs) [] fs

/-- The number with the given digits before and after its point. -/
def positional (base : Nat) (ws fs : List Nat) : ℚ :=
  Nat.ofDigits base (ws ++ fs).reverse / base ^ fs.length

/-- The number that the first five digits after leading zeros make. -/
def leadingValue (ds : List Nat) : Nat := Nat.ofDigits 10 ((ds.dropWhile (· = 0)).take 5).reverse

/-- The number that the digits of an exponent make. If it has more than five, the others do not
count. -/
def exponentValue (ds : List Nat) : Nat :=
  let n := Nat.ofDigits 10 ds.reverse
  if n < 10 ^ 5 then n else leadingValue ds

/-- An exponent after its letter, of either case. -/
inductive Exponent (letter : Char) : List Char → Int → Prop where
  | intro {c : Char} {cs body : List Char} {negative : Bool} {ds : List Nat}
      (hc : c = letter ∨ c = letter.toUpper) (sign : Signed cs negative body)
      (digits : Digits 10 body ds) :
      Exponent letter (c :: cs) (if negative then -(exponentValue ds : Int) else exponentValue ds)

/-- The number that a literal without a sign names. A hexadecimal one has an exponent, to the base
of two. -/
inductive NamesRational : List Char → ℚ → Prop where
  | decimal {cs : List Char} {ws fs : List Nat} (mantissa : Mantissa 10 (Digits 10) cs ws fs) :
      NamesRational cs (positional 10 ws fs)
  | scaled {cs es : List Char} {ws fs : List Nat} {k : Int}
      (mantissa : Mantissa 10 (Digits 10) cs ws fs) (exponent : Exponent 'e' es k) :
      NamesRational (cs ++ es) (positional 10 ws fs * 10 ^ k)
  | hexadecimal {x : Char} {cs es : List Char} {ws fs : List Nat} {k : Int} (hx : x = 'x' ∨ x = 'X')
      (mantissa : Mantissa 16 (MarkedDigits 16) cs ws fs) (exponent : Exponent 'p' es k) :
      NamesRational ('0' :: x :: (cs ++ es)) (positional 16 ws fs * 2 ^ k)

/-- Whether a text is a name up to the case of its letters. -/
def InAnyCase (name : String) (cs : List Char) : Prop :=
  List.Forall₂ (fun c l => c = l ∨ c = l.toUpper) cs name.toList

/-- The number of 64 bits that a literal names: an infinity or a number that is no number by its
name, any other by being nearest to what the literal says. -/
inductive NamesReal : List Char → Binary64 → Prop where
  | nan {text : List Char} (hname : InAnyCase "nan" text) : NamesReal text .nan
  | infinite {text body : List Char} {negative : Bool} (sign : Signed text negative body)
      (hname : InAnyCase "inf" body ∨ InAnyCase "infinity" body) :
      NamesReal text (.infinite negative)
  | finite {text body : List Char} {negative : Bool} {q : ℚ} {x : Binary64}
      (sign : Signed text negative body) (number : NamesRational body q)
      (hnear : Rounds negative q x) : NamesReal text x

section Cutting

variable {inDigits : Char → Bool} {body cs ds rest : List Char}

/-- A text cut into the digits before a point, those after it and what follows. -/
structure Cut (inDigits : Char → Bool) (body cs ds rest : List Char) : Prop where
  whole : ∀ c ∈ cs, inDigits c = true
  fraction : ∀ c ∈ ds, inDigits c = true
  stop : ∀ c ∈ rest.head?, inDigits c = false
  parts : body = cs ++ '.' :: (ds ++ rest) ∨ body = cs ++ rest ∧ ds = [] ∧ rest.head? ≠ some '.'

theorem takeWhile_append_stop (hcs : ∀ c ∈ cs, inDigits c = true)
    (hstop : ∀ c ∈ rest.head?, inDigits c = false) :
    (cs ++ rest).takeWhile inDigits = cs ∧ (cs ++ rest).dropWhile inDigits = rest := by
  rw [List.takeWhile_append_of_pos hcs, List.dropWhile_append_of_pos hcs]
  cases rest with
  | nil => simp
  | cons c rest => simp [hstop c rfl]

theorem cutDigits_iff (hpoint : inDigits '.' = false) :
    cutDigits inDigits body = (cs, ds, rest) ↔ Cut inDigits body cs ds rest := by
  have hstop : ∀ text : List Char, ∀ c ∈ (text.dropWhile inDigits).head?, inDigits c = false := by
    intro text c hc
    have hnot := List.head?_dropWhile_not inDigits text
    rw [Option.mem_def.mp hc] at hnot
    simpa using hnot
  constructor
  · intro h
    have hbody := List.takeWhile_append_dropWhile (p := inDigits) (l := body)
    unfold cutDigits at h
    split at h
    · next tail hdrop =>
      cases h
      refine ⟨fun c => List.mem_takeWhile_imp, fun c => List.mem_takeWhile_imp, hstop tail,
        Or.inl ?_⟩
      rw [List.takeWhile_append_dropWhile, ← hdrop, hbody]
    · next hne =>
      cases h
      refine ⟨fun c => List.mem_takeWhile_imp, nofun, hstop body, Or.inr ⟨hbody.symm, rfl, ?_⟩⟩
      intro hhead
      obtain ⟨tail, htail⟩ := List.head?_eq_some_iff.mp hhead
      exact hne tail htail
  · rintro ⟨hwhole, hfraction, hrest, rfl | ⟨rfl, rfl, hhead⟩⟩
    · have hstop : ∀ c ∈ ('.' :: (ds ++ rest)).head?, inDigits c = false := by simpa using hpoint
      obtain ⟨htake, hdrop⟩ := takeWhile_append_stop hwhole hstop
      obtain ⟨htake', hdrop'⟩ := takeWhile_append_stop hfraction hrest
      rw [cutDigits, htake, hdrop]
      simp only [htake', hdrop']
    · obtain ⟨htake, hdrop⟩ := takeWhile_append_stop hwhole hrest
      rw [cutDigits, htake, hdrop]
      split
      · exact absurd rfl hhead
      · rfl

end Cutting

section Separating

variable {isDigit : Char → Bool} {after : Bool} {body cs ds rest : List Char}

/-- What is neither a digit nor an underscore ends a run of digits. -/
theorem separatorsOk_append (hstop : ∀ c ∈ rest.head?, (isDigit c || c = '_') = false) :
    separatorsOk isDigit after (cs ++ rest) =
      (separatorsOk isDigit after cs && separatorsOk isDigit false rest.tail) := by
  induction cs generalizing after with
  | nil =>
    cases rest with
    | nil => rfl
    | cons c rest =>
      obtain ⟨hdigit, hc⟩ : isDigit c = false ∧ c ≠ '_' := by simpa using hstop c rfl
      simp [separatorsOk, hc, hdigit]
  | cons c cs ih =>
    rw [List.cons_append, separatorsOk, separatorsOk]
    split
    · rw [ih]
      have hhead : (cs ++ rest).head?.any isDigit = cs.head?.any isDigit := by
        cases cs with
        | cons => rfl
        | nil =>
          cases rest with
          | nil => rfl
          | cons x rest =>
            have hx : isDigit x = false ∧ x ≠ '_' := by simpa using hstop x rfl
            exact hx.1
      rw [hhead, Bool.and_assoc, Bool.and_assoc, Bool.and_assoc]
    · exact ih

/-- Where digits surround the underscores there is one. -/
theorem filter_ne_nil (hok : separatorsOk isDigit after cs = true) (hcs : cs ≠ [])
    (hunder : isDigit '_' = false) : cs.filter (· ≠ '_') ≠ [] := by
  obtain ⟨c, tail, rfl⟩ := List.exists_cons_of_ne_nil hcs
  by_cases hc : c = '_'
  · subst hc
    rw [separatorsOk, if_pos rfl, Bool.and_eq_true, Bool.and_eq_true, Option.any_eq_true] at hok
    obtain ⟨x, hx, hdigit⟩ := hok.1.2
    have hne : x ≠ '_' := by
      rintro rfl
      rw [hunder] at hdigit
      exact Bool.false_ne_true hdigit
    exact List.ne_nil_of_mem (List.mem_filter.mpr
      ⟨List.mem_cons_of_mem _ (List.mem_of_mem_head? hx), by simpa using hne⟩)
  · rw [filter_digit hc]
    exact List.cons_ne_nil _ _

theorem Cut.separatorsOk_iff (h : Cut (fun c => isDigit c || c = '_') body cs ds rest)
    (hpoint : isDigit '.' = false) :
    separatorsOk isDigit after body = true ↔ separatorsOk isDigit after cs = true ∧
      separatorsOk isDigit false ds = true ∧ separatorsOk isDigit false rest.tail = true := by
  rcases h.parts with rfl | ⟨rfl, rfl, -⟩
  · rw [separatorsOk_append (by simpa using hpoint), List.tail_cons, separatorsOk_append h.stop,
      Bool.and_eq_true, Bool.and_eq_true]
  · rw [separatorsOk_append h.stop, Bool.and_eq_true]
    exact and_congr_right fun _ => (and_iff_right rfl).symm

end Separating

section Exponents

variable {isDigit : Char → Bool} {cs : List Char} {ds : List Nat}

theorem Digit.toNat_sub {c : Char} {d : Nat} (h : Digit 10 c d) : c.toNat - '0'.toNat = d := by
  obtain ⟨hd, hc⟩ := h
  interval_cases d
  all_goals
    simp at hc
    subst hc
    rfl

theorem ofDigits_reverse_cons (base d : Nat) (ds : List Nat) :
    Nat.ofDigits base (d :: ds).reverse = d * base ^ ds.length + Nat.ofDigits base ds.reverse := by
  rw [List.reverse_cons, Nat.ofDigits_append, Nat.ofDigits_singleton, List.length_reverse]
  ring

theorem leadingValue_of_lt (h : Nat.ofDigits 10 ds.reverse < 10 ^ 5) :
    leadingValue ds = Nat.ofDigits 10 ds.reverse := by
  induction ds with
  | nil => rfl
  | cons d ds ih =>
    by_cases hd : d = 0
    · rw [hd, ofDigits_reverse_cons, zero_mul, zero_add] at h ⊢
      rw [← ih h, leadingValue, List.dropWhile_cons_of_pos (by simp), leadingValue]
    · have hlength : ds.length < 5 := by
        rw [ofDigits_reverse_cons] at h
        have hpos : 1 * 10 ^ ds.length ≤ d * 10 ^ ds.length :=
          Nat.mul_le_mul_right _ (Nat.one_le_iff_ne_zero.mpr hd)
        exact (Nat.pow_lt_pow_iff_right (by norm_num : 1 < 10)).mp (by omega)
      rw [leadingValue, List.dropWhile_cons_of_neg (by simpa using hd),
        List.take_of_length_le (by rw [List.length_cons]; omega)]

/-- One digit more of an exponent, which counts as long as the limit is not reached. -/
def addDigit (e d : Nat) : Nat := if e < exponentLimit then e * 10 + d else e

/-- After a number of `i + 1` digits, `j` more count. -/
theorem foldl_addDigit {e i j : Nat} (hij : i + j = 4) (hlow : 10 ^ i ≤ e)
    (hhigh : e < 10 ^ (i + 1)) (hds : ∀ d ∈ ds, d < 10) : ds.foldl addDigit e =
      e * 10 ^ (ds.take j).length + Nat.ofDigits 10 (ds.take j).reverse := by
  induction ds generalizing e i j with
  | nil => simp
  | cons d ds ih =>
    rw [List.foldl_cons]
    cases j with
    | zero =>
      have hlimit : ¬e < exponentLimit := by
        obtain rfl : i = 4 := hij
        exact not_lt.mpr hlow
      rw [addDigit, if_neg hlimit, ih hij hlow hhigh fun x hx => hds x (List.mem_cons_of_mem d hx)]
      simp
    | succ j =>
      have hd := hds d List.mem_cons_self
      have hlimit : e < exponentLimit :=
        hhigh.trans_le (Nat.pow_le_pow_right (by norm_num) (by omega : i + 1 ≤ 4))
      have hlow' : 10 ^ (i + 1) ≤ e * 10 + d := by rw [pow_succ]; omega
      have hhigh' : e * 10 + d < 10 ^ (i + 1 + 1) := by rw [pow_succ]; omega
      rw [addDigit, if_pos hlimit, ih (j := j) (by omega) hlow' hhigh' fun x hx =>
        hds x (List.mem_cons_of_mem d hx), List.take_succ_cons, ofDigits_reverse_cons,
        List.length_cons, pow_succ]
      ring

theorem foldl_addDigit_zero (hds : ∀ d ∈ ds, d < 10) : ds.foldl addDigit 0 = leadingValue ds := by
  induction ds with
  | nil => rfl
  | cons d ds ih =>
    have hrest := fun x hx => hds x (List.mem_cons_of_mem d hx)
    have hfirst : addDigit 0 d = d := by simp [addDigit, exponentLimit]
    rw [List.foldl_cons, hfirst, leadingValue]
    by_cases hd : d = 0
    · rw [hd, ih hrest, List.dropWhile_cons_of_pos (by simp), leadingValue]
    · rw [List.dropWhile_cons_of_neg (by simpa using hd), List.take_succ_cons,
        ofDigits_reverse_cons]
      exact foldl_addDigit (i := 0) rfl (Nat.one_le_iff_ne_zero.mpr hd)
        (hds d List.mem_cons_self) hrest

theorem exponentValue_eq (ds : List Nat) : exponentValue ds = leadingValue ds := by
  rw [exponentValue]
  split
  · next h => exact (leadingValue_of_lt h).symm
  · rfl

theorem exists_digits (hcs : ∀ c ∈ cs, c.isDigit = true) : ∃ ds, List.Forall₂ (Digit 10) cs ds := by
  induction cs with
  | nil => exact ⟨[], .nil⟩
  | cons c cs ih =>
    obtain ⟨d, -, hd⟩ := isDigit_iff.mp (hcs c List.mem_cons_self)
    obtain ⟨ds, hds⟩ := ih fun x hx => hcs x (List.mem_cons_of_mem c hx)
    exact ⟨d :: ds, .cons hd hds⟩

theorem foldl_exponent {e : Nat} (h : List.Forall₂ (Digit 10) cs ds) :
    cs.foldl (fun e c => if e < exponentLimit then e * 10 + (c.toNat - '0'.toNat) else e) e =
      ds.foldl addDigit e := by
  induction h generalizing e with
  | nil => rfl
  | cons hd _ ih => rw [List.foldl_cons, List.foldl_cons, hd.toNat_sub, ih, addDigit]

/-- Every character of a run of digits is one or an underscore. -/
theorem Separated.isDigit_or {base : Nat} {after : Bool} (h : Separated isDigit base after cs ds)
    (hdigit : ∀ c d, Digit base c d → isDigit c = true) (c : Char) (hc : c ∈ cs) :
    (isDigit c || c = '_') = true := by
  obtain ⟨hall, -⟩ := (List.forall₂_and_left (p := fun c => isDigit c = true) _ _).mp
    (h.2.imp fun c d hd => ⟨hdigit c d hd, hd⟩)
  by_cases hunder : c = '_'
  · simp [hunder]
  · rw [hall c (List.mem_filter.mpr ⟨hc, by simpa using hunder⟩), Bool.true_or]

theorem readExponentDigits_iff (hdigit : ∀ c d, Digit 10 c d → isDigit c = true) {n : Nat} :
    readExponentDigits cs = some n ∧ separatorsOk isDigit false cs = true ↔
      ∃ ds, Digits 10 cs ds ∧ n = exponentValue ds := by
  have hvalue : ∀ ds, List.Forall₂ (Digit 10) (cs.filter (· ≠ '_')) ds →
      (cs.filter (· ≠ '_')).foldl
        (fun e c => if e < exponentLimit then e * 10 + (c.toNat - '0'.toNat) else e) 0 =
      exponentValue ds := by
    intro ds hds
    obtain ⟨hsmall, -⟩ := (List.forall₂_and_left (p := (· < 10)) _ _).mp
      (hds.flip.imp fun d c hd => ⟨hd.1, hd⟩)
    rw [foldl_exponent hds, foldl_addDigit_zero hsmall, exponentValue_eq]
  rw [readExponentDigits, Option.ite_none_right_eq_some, Bool.and_eq_true, Option.some_inj]
  constructor
  · rintro ⟨⟨⟨hhead, hall⟩, rfl⟩, hok⟩
    have hcs : cs ≠ [] := by
      rintro rfl
      simp at hhead
    have hplain : ∀ c ∈ cs.filter (· ≠ '_'), c.isDigit = true := by
      intro c hc
      obtain ⟨hc, hne⟩ := List.mem_filter.mp hc
      have hor := List.all_eq_true.mp hall c hc
      simp only [Bool.or_eq_true, decide_eq_true_eq] at hor hne
      exact hor.resolve_right hne
    obtain ⟨ds, hds⟩ := exists_digits hplain
    exact ⟨ds, Separated.digits hdigit ⟨hok, hds⟩ hcs, hvalue ds hds⟩
  · rintro ⟨ds, hdigits, rfl⟩
    have hsep := hdigits.separated hdigit false
    have hplain := hdigits.separated (fun c d h => Digit.isDigit h) false
    refine ⟨⟨⟨?_, ?_⟩, hvalue ds hsep.2⟩, hsep.1⟩
    · obtain ⟨c, d, tail, rfl, hc⟩ := hdigits.head
      exact hc.isDigit
    · exact List.all_eq_true.mpr (hplain.isDigit_or fun c d h => h.isDigit)

theorem readExponent_iff (hdigit : ∀ c d, Digit 10 c d → isDigit c = true)
    (hminus : isDigit '-' = false) (hplus : isDigit '+' = false) {k : Int} :
    readExponent cs = some k ∧ separatorsOk isDigit false cs = true ↔
      ∃ negative body, Signed cs negative body ∧ ∃ ds, Digits 10 body ds ∧
        k = if negative then -(exponentValue ds : Int) else exponentValue ds := by
  have hread : ∀ body (sign : Nat → Int),
      (readExponentDigits body).map sign = some k ∧ separatorsOk isDigit false body = true ↔
        ∃ ds, Digits 10 body ds ∧ k = sign (exponentValue ds) := by
    intro body sign
    constructor
    · rintro ⟨hsome, hok⟩
      obtain ⟨n, hn, rfl⟩ := Option.map_eq_some_iff.mp hsome
      obtain ⟨ds, hds, rfl⟩ := (readExponentDigits_iff hdigit).mp ⟨hn, hok⟩
      exact ⟨ds, hds, rfl⟩
    · rintro ⟨ds, hds, rfl⟩
      obtain ⟨hn, hok⟩ := (readExponentDigits_iff hdigit).mpr ⟨ds, hds, rfl⟩
      exact ⟨Option.map_eq_some_iff.mpr ⟨_, hn, rfl⟩, hok⟩
  unfold readExponent
  split
  · rw [exists_signed_minus, separatorsOk, if_neg (by decide), hminus]
    · exact hread _ _
    · rintro ⟨ds, hds, -⟩
      exact hds.not_sign.1 rfl
  · rw [exists_signed_plus, separatorsOk, if_neg (by decide), hplus]
    · exact hread _ _
    · rintro ⟨ds, hds, -⟩
      exact hds.not_sign.2 rfl
  · next hnoMinus hnoPlus =>
    rw [exists_signed_unsigned hnoMinus hnoPlus]
    exact hread _ _

end Exponents

section Bodies

variable {isDigit : Char → Bool} {hexadecimal negative : Bool} {base : Nat}
variable {Whole : List Char → List Nat → Prop} {body cs ds rest : List Char} {ws fs : List Nat}
variable {k : Int} {x : Binary64}

theorem readScale_iff {letter : Char} (hletter : letter = if hexadecimal then 'p' else 'e')
    (hdigit : ∀ c d, Digit 10 c d → isDigit c = true)
    (hminus : isDigit '-' = false) (hplus : isDigit '+' = false) :
    readScale hexadecimal rest = some k ∧ separatorsOk isDigit false rest.tail = true ↔
      (hexadecimal = false ∧ rest = [] ∧ k = 0) ∨ Exponent letter rest k := by
  cases rest with
  | nil =>
    have hnone : ¬Exponent letter [] k := nofun
    cases hexadecimal
    · simp [readScale, separatorsOk, hnone, eq_comm]
    · simp [readScale, hnone]
  | cons c cs =>
    have hlower : letter.isLower = true := by
      rw [hletter]
      cases hexadecimal <;> rfl
    rw [readScale, ← hletter, Option.ite_none_right_eq_some, toLower_eq_iff hlower, List.tail_cons,
      and_assoc, readExponent_iff hdigit hminus hplus]
    constructor
    · rintro ⟨hc, negative, body, hsign, ds, hds, rfl⟩
      exact Or.inr ⟨hc, hsign, hds⟩
    · rintro (⟨-, hnil, -⟩ | ⟨hc, hsign, hds⟩)
      · exact absurd hnil (List.cons_ne_nil c cs)
      · exact ⟨hc, _, _, hsign, _, hds, rfl⟩

theorem readDigits_append_iff (hbase : base ≤ 16) {n : Nat} :
    readDigits base 0 (cs ++ ds) = some n ↔ ∃ ws fs, List.Forall₂ (Digit base) cs ws ∧
      List.Forall₂ (Digit base) ds fs ∧ n = Nat.ofDigits base (ws ++ fs).reverse := by
  rw [readDigits_iff hbase]
  simp only [zero_mul, zero_add]
  constructor
  · rintro ⟨vs, hvs, rfl⟩
    refine ⟨vs.take cs.length, vs.drop cs.length, (List.forall₂_take_append _ _ _ hvs.flip).flip,
      (List.forall₂_drop_append _ _ _ hvs.flip).flip, ?_⟩
    rw [List.take_append_drop]
  · rintro ⟨ws, fs, hws, hfs, rfl⟩
    exact ⟨ws ++ fs, List.rel_append hws hfs, rfl⟩

theorem rounds_iff {scale n : Nat} (hscale : 0 < scale) (j : Int) :
    (if n = 0 then some (.finite negative 0 (-1074))
      else Binary64.ofRatio? negative (scaleBy scale j n 1).1 (scaleBy scale j n 1).2) = some x ↔
    Rounds negative (n * scale ^ j) x := by
  obtain ⟨hden, hratio⟩ := scaleBy_ratio n one_pos hscale j
  rw [Nat.cast_one, div_one] at hratio
  rw [← hratio, ← Binary64.ofRatio?_eq_some_iff _ hden]
  split
  · next hn =>
    have hnum : (scaleBy scale j n 1).1 = 0 := by
      rw [scaleBy]
      split <;> simp [hn]
    rw [Binary64.ofRatio?, if_pos hnum]
  · rfl

theorem value?_iff : RealLiteral.value? ⟨hexadecimal, cs, ds, k⟩ negative = some x ↔
    ∃ ws fs, List.Forall₂ (Digit (if hexadecimal then 16 else 10)) cs ws ∧
      List.Forall₂ (Digit (if hexadecimal then 16 else 10)) ds fs ∧
      Rounds negative (positional (if hexadecimal then 16 else 10) ws fs *
        (if hexadecimal then 2 else 10) ^ k) x := by
  have hbase : (if hexadecimal then 16 else 10) ≤ 16 := by cases hexadecimal <;> decide
  let scaled (n : Nat) : Nat × Nat :=
    if hexadecimal then scaleBy 2 (k - 4 * ds.length) n 1 else scaleBy 10 (k - ds.length) n 1
  have hscaled : ∀ n fs, List.Forall₂ (Digit (if hexadecimal then 16 else 10)) ds fs →
      ((if n = 0 then some (.finite negative 0 (-1074))
        else Binary64.ofRatio? negative (scaled n).1 (scaled n).2) = some x ↔
        Rounds negative ((n : ℚ) / (if hexadecimal then 16 else 10 : Nat) ^ fs.length *
          (if hexadecimal then 2 else 10) ^ k) x) := by
    intro n fs hfs
    rw [← hfs.length_eq]
    cases hexadecimal
    · simp only [scaled, Bool.false_eq_true, if_false]
      rw [rounds_iff (by decide), Nat.cast_ofNat, zpow_sub₀ (by norm_num), zpow_natCast,
        mul_div_assoc', div_mul_eq_mul_div]
    · simp only [scaled, if_true]
      have hpow : (2 : ℚ) ^ (4 * ds.length : Int) = 16 ^ ds.length := by
        rw [zpow_mul, zpow_natCast]
        norm_num
      rw [rounds_iff (by decide), Nat.cast_ofNat, Nat.cast_ofNat, zpow_sub₀ (by norm_num), hpow,
        mul_div_assoc', div_mul_eq_mul_div]
  rw [RealLiteral.value?, Option.bind_eq_some_iff]
  simp only [readDigits_append_iff hbase]
  constructor
  · rintro ⟨n, ⟨ws, fs, hws, hfs, rfl⟩, hx⟩
    exact ⟨ws, fs, hws, hfs, (hscaled _ fs hfs).mp hx⟩
  · rintro ⟨ws, fs, hws, hfs, hx⟩
    exact ⟨_, ⟨ws, fs, hws, hfs, rfl⟩, (hscaled _ fs hfs).mpr hx⟩

section Mantissas

variable (hdigit : ∀ c d, Digit base c d → isDigit c = true)
variable (hwhole : ∀ cs ws, Whole cs ws ↔ cs ≠ [] ∧ Separated isDigit base hexadecimal cs ws)

include hdigit hwhole

theorem mantissa_iff : Mantissa base Whole cs ws fs ↔
    ∃ a b, (cs = a ++ '.' :: b ∨ cs = a ∧ b = []) ∧ (a ≠ [] ∨ b ≠ []) ∧
      Separated isDigit base hexadecimal a ws ∧ Separated isDigit base false b fs := by
  have hempty : ∀ after, Separated isDigit base after [] [] := fun _ => ⟨rfl, .nil⟩
  constructor
  · rintro (hw | hw | ⟨hw, hf⟩ | hf)
    · obtain ⟨hcs, hws⟩ := (hwhole _ _).mp hw
      exact ⟨cs, [], Or.inr ⟨rfl, rfl⟩, Or.inl hcs, hws, hempty false⟩
    · obtain ⟨hcs, hws⟩ := (hwhole _ _).mp hw
      exact ⟨_, [], Or.inl rfl, Or.inl hcs, hws, hempty false⟩
    · obtain ⟨hcs, hws⟩ := (hwhole _ _).mp hw
      exact ⟨_, _, Or.inl rfl, Or.inl hcs, hws, hf.separated hdigit false⟩
    · obtain ⟨c, d, tail, rfl, -⟩ := hf.head
      exact ⟨[], _, Or.inl rfl, Or.inr (List.cons_ne_nil _ _), hempty _, hf.separated hdigit false⟩
  · rintro ⟨a, b, hcs, hne, hws, hfs⟩
    by_cases hb : b = []
    · subst hb
      obtain rfl : fs = [] := by
        have hnil := hfs.2
        rwa [List.filter_nil, List.forall₂_nil_left_iff] at hnil
      have hw := (hwhole a ws).mpr ⟨hne.resolve_right (absurd rfl), hws⟩
      rcases hcs with rfl | ⟨rfl, -⟩
      · exact .point hw
      · exact .whole hw
    · obtain rfl : cs = a ++ '.' :: b := hcs.resolve_right fun h => hb h.2
      have hf := hfs.digits hdigit hb
      by_cases ha : a = []
      · subst ha
        obtain rfl : ws = [] := by
          have hnil := hws.2
          rwa [List.filter_nil, List.forall₂_nil_left_iff] at hnil
        exact .fraction hf
      · exact .both ((hwhole a ws).mpr ⟨ha, hws⟩) hf

theorem exists_cut_iff (hpoint : isDigit '.' = false) (hunder : isDigit '_' = false)
    (hstop : ∀ c ∈ rest.head?, (isDigit c || c = '_') = false ∧ c ≠ '.') :
    (∃ a b, Cut (fun c => isDigit c || c = '_') body a b rest ∧
      separatorsOk isDigit hexadecimal body = true ∧
      (a.filter (· ≠ '_') ≠ [] ∨ b.filter (· ≠ '_') ≠ []) ∧
      List.Forall₂ (Digit base) (a.filter (· ≠ '_')) ws ∧
      List.Forall₂ (Digit base) (b.filter (· ≠ '_')) fs) ↔
    ∃ cs, body = cs ++ rest ∧ Mantissa base Whole cs ws fs ∧
      separatorsOk isDigit false rest.tail = true := by
  constructor
  · rintro ⟨a, b, hcut, hok, hne, hws, hfs⟩
    obtain ⟨ha, hb, hrest⟩ := (hcut.separatorsOk_iff hpoint).mp hok
    have hsome : a ≠ [] ∨ b ≠ [] :=
      hne.imp (fun h he => h (by rw [he, List.filter_nil])) fun h he =>
        h (by rw [he, List.filter_nil])
    rcases hcut.parts with rfl | ⟨rfl, hnil, -⟩
    · refine ⟨a ++ '.' :: b, by simp, ?_, hrest⟩
      exact (mantissa_iff hdigit hwhole).mpr ⟨a, b, Or.inl rfl, hsome, ⟨ha, hws⟩, ⟨hb, hfs⟩⟩
    · refine ⟨a, rfl, ?_, hrest⟩
      exact (mantissa_iff hdigit hwhole).mpr ⟨a, b, Or.inr ⟨rfl, hnil⟩, hsome, ⟨ha, hws⟩, ⟨hb, hfs⟩⟩
  · rintro ⟨cs, rfl, hmantissa, hrest⟩
    obtain ⟨a, b, hcs, hsome, hws, hfs⟩ := (mantissa_iff hdigit hwhole).mp hmantissa
    have hcut : Cut (fun c => isDigit c || c = '_') (cs ++ rest) a b rest := by
      refine ⟨hws.isDigit_or hdigit, hfs.isDigit_or hdigit, fun c hc => (hstop c hc).1, ?_⟩
      rcases hcs with rfl | ⟨rfl, rfl⟩
      · exact Or.inl (by simp)
      · exact Or.inr ⟨rfl, rfl, fun h => (hstop _ h).2 rfl⟩
    refine ⟨a, b, hcut, (hcut.separatorsOk_iff hpoint).mpr ⟨hws.1, hfs.1, hrest⟩, ?_, hws.2, hfs.2⟩
    exact hsome.imp (fun ha => filter_ne_nil hws.1 ha hunder)
      fun hb => filter_ne_nil hfs.1 hb hunder

end Mantissas

theorem readBody_of_cut
    (hcut : cutDigits
      (fun c => (if hexadecimal then isHexDigit else Char.isDigit) c || c = '_') body =
      (cs, ds, rest)) : (readBody hexadecimal body).bind (·.value? negative) = some x ↔
    (cs.filter (· ≠ '_') ≠ [] ∨ ds.filter (· ≠ '_') ≠ []) ∧
      separatorsOk (if hexadecimal then isHexDigit else Char.isDigit) hexadecimal body = true ∧
      ∃ k, readScale hexadecimal rest = some k ∧ RealLiteral.value?
        ⟨hexadecimal, cs.filter (· ≠ '_'), ds.filter (· ≠ '_'), k⟩ negative = some x := by
  rw [readBody, hcut]
  simp only [Option.bind_eq_some_iff, Option.ite_none_left_eq_some, Option.map_eq_some_iff,
    Bool.or_eq_true, Bool.and_eq_true, List.isEmpty_iff, Bool.not_eq_true', not_or, not_and_or,
    Bool.not_eq_false]
  constructor
  · rintro ⟨_, ⟨⟨hne, hok⟩, k, hk, rfl⟩, hx⟩
    exact ⟨hne, hok, k, hk, hx⟩
  · rintro ⟨hne, hok, k, hk, hx⟩
    exact ⟨_, ⟨⟨hne, hok⟩, k, hk, rfl⟩, hx⟩

theorem isDigit_mark {c : Char} (hc : c ∈ ['.', '_', '-', '+']) :
    (if hexadecimal then isHexDigit else Char.isDigit) c = false := by
  revert c
  cases hexadecimal <;> simp [isHexDigit]

theorem Digit.isDigit_of_base {c : Char} {d : Nat}
    (h : Digit (if hexadecimal then 16 else 10) c d) :
    (if hexadecimal then Number.isHexDigit else Char.isDigit) c = true := by
  cases hexadecimal
  · exact h.isDigit
  · exact h.isHexDigit

theorem Digit.isDigit_of_decimal {c : Char} {d : Nat} (h : Digit 10 c d) :
    (if hexadecimal then Number.isHexDigit else Char.isDigit) c = true := by
  cases hexadecimal
  · exact h.isDigit
  · exact Digit.isHexDigit ⟨h.1.trans (by decide), h.2⟩

/-- The letter of an exponent ends the digits before it. -/
theorem Exponent.isDigit_head {letter : Char} (hletter : letter = if hexadecimal then 'p' else 'e')
    {es : List Char} {k : Int} (h : Exponent letter es k) :
    ∀ c ∈ es.head?,
      ((if hexadecimal then isHexDigit else Char.isDigit) c || c = '_') = false ∧ c ≠ '.' := by
  obtain ⟨hc, -, -⟩ := h
  intro x hx
  obtain rfl := Option.some_inj.mp hx
  subst hletter
  cases hexadecimal
  · rcases hc with rfl | rfl <;> decide
  · rcases hc with rfl | rfl <;> decide

variable (hexadecimal) in
theorem readBody_iff {letter : Char} (hletter : letter = if hexadecimal then 'p' else 'e')
    (hwhole : ∀ cs ws, Whole cs ws ↔ cs ≠ [] ∧
      Separated (if hexadecimal then isHexDigit else Char.isDigit) (if hexadecimal then 16 else 10)
        hexadecimal cs ws) :
    (readBody hexadecimal body).bind (·.value? negative) = some x ↔
      ∃ cs es ws fs k, body = cs ++ es ∧ Mantissa (if hexadecimal then 16 else 10) Whole cs ws fs ∧
        ((hexadecimal = false ∧ es = [] ∧ k = 0) ∨ Exponent letter es k) ∧
        Rounds negative (positional (if hexadecimal then 16 else 10) ws fs *
          (if hexadecimal then 2 else 10) ^ k) x := by
  let isDigit : Char → Bool := if hexadecimal then isHexDigit else Char.isDigit
  have hpoint : isDigit '.' = false := isDigit_mark (by decide)
  have hunder : isDigit '_' = false := isDigit_mark (by decide)
  have hends : (isDigit '.' || '.' = '_') = false := by simp [hpoint]
  have hscale : ∀ rest k, readScale hexadecimal rest = some k ∧
      separatorsOk isDigit false rest.tail = true ↔
        (hexadecimal = false ∧ rest = [] ∧ k = 0) ∨ Exponent letter rest k := by
    intro rest k
    exact readScale_iff hletter (fun _ _ h => h.isDigit_of_decimal) (isDigit_mark (by decide))
      (isDigit_mark (by decide))
  have hstop : ∀ rest k, (hexadecimal = false ∧ rest = [] ∧ k = 0) ∨ Exponent letter rest k →
      ∀ c ∈ rest.head?, (isDigit c || c = '_') = false ∧ c ≠ '.' := by
    rintro rest k (⟨-, rfl, -⟩ | hexp)
    · exact nofun
    · exact hexp.isDigit_head hletter
  constructor
  · intro h
    obtain ⟨⟨a, b, rest⟩, hcut⟩ : ∃ parts, cutDigits (fun c => isDigit c || c = '_') body = parts :=
      ⟨_, rfl⟩
    obtain ⟨hne, hok, k, hk, hx⟩ := (readBody_of_cut hcut).mp h
    obtain ⟨ws, fs, hws, hfs, hround⟩ := value?_iff.mp hx
    have hcut := (cutDigits_iff hends).mp hcut
    have hrest := ((hcut.separatorsOk_iff hpoint).mp hok).2.2
    have hexp := (hscale rest k).mp ⟨hk, hrest⟩
    obtain ⟨cs, rfl, hm, -⟩ := (exists_cut_iff (fun _ _ h => h.isDigit_of_base) hwhole hpoint hunder
      (hstop rest k hexp)).mp ⟨a, b, hcut, hok, hne, hws, hfs⟩
    exact ⟨cs, rest, ws, fs, k, rfl, hm, hexp, hround⟩
  · rintro ⟨cs, rest, ws, fs, k, rfl, hm, hexp, hround⟩
    obtain ⟨hk, hrest⟩ := (hscale rest k).mpr hexp
    obtain ⟨a, b, hcut, hok, hne, hws, hfs⟩ := (exists_cut_iff (fun _ _ h => h.isDigit_of_base)
      hwhole hpoint hunder (hstop rest k hexp)).mpr ⟨cs, rfl, hm, hrest⟩
    refine (readBody_of_cut ((cutDigits_iff hends).mpr hcut)).mpr ⟨hne, hok, k, hk, ?_⟩
    exact value?_iff.mpr ⟨ws, fs, hws, hfs, hround⟩

end Bodies

section Numbers

variable {text : List Char} {negative : Bool} {x : Binary64}

theorem exists_namesRational_iff : (∃ q, NamesRational text q ∧ Rounds negative q x) ↔
    (readBody false text).bind (·.value? negative) = some x ∨
      ∃ c body, text = '0' :: c :: body ∧ (c = 'x' ∨ c = 'X') ∧
        (readBody true body).bind (·.value? negative) = some x := by
  have hwhole : ∀ cs ws, Digits 10 cs ws ↔ cs ≠ [] ∧ Separated Char.isDigit 10 false cs ws := by
    intro cs ws
    have hdigit : ∀ c d, Digit 10 c d → c.isDigit = true := fun c d h => h.isDigit
    refine ⟨fun h => ⟨?_, h.separated hdigit false⟩, fun h => h.2.digits hdigit h.1⟩
    obtain ⟨c, d, tail, rfl, -⟩ := h.head
    exact List.cons_ne_nil c tail
  have hmarked : ∀ cs ws, MarkedDigits 16 cs ws ↔
      cs ≠ [] ∧ Separated isHexDigit 16 true cs ws := by
    intro cs ws
    have hdigit : ∀ c d, Digit 16 c d → isHexDigit c = true := fun c d h => h.isHexDigit
    exact ⟨fun h => ⟨h.ne_nil, h.separated hdigit⟩, fun h => h.2.markedDigits hdigit h.1⟩
  rw [readBody_iff false rfl hwhole]
  simp only [readBody_iff true rfl hmarked, if_true, Bool.false_eq_true, if_false,
    true_and, Bool.true_eq_false, false_and, false_or]
  constructor
  · rintro ⟨_, hm | ⟨hm, he⟩ | ⟨hc, hm, he⟩, hround⟩
    · exact Or.inl ⟨text, [], _, _, 0, by simp, hm, Or.inl ⟨rfl, rfl⟩, by simpa using hround⟩
    · exact Or.inl ⟨_, _, _, _, _, rfl, hm, Or.inr he, hround⟩
    · exact Or.inr ⟨_, _, rfl, hc, _, _, _, _, _, rfl, hm, he, hround⟩
  · rintro (⟨cs, es, ws, fs, k, rfl, hm, ⟨rfl, rfl⟩ | he, hround⟩ |
      ⟨c, body, rfl, hc, cs, es, ws, fs, k, rfl, hm, he, hround⟩)
    · rw [List.append_nil]
      exact ⟨_, .decimal hm, by simpa using hround⟩
    · exact ⟨_, .scaled hm he, hround⟩
    · exact ⟨_, .hexadecimal hc hm he, hround⟩

theorem readParts_iff : (readParts text).bind (·.value? negative) = some x ↔
    ∃ q, NamesRational text q ∧ Rounds negative q x := by
  rw [exists_namesRational_iff]
  have hlower : ∀ c : Char, c.toLower = 'x' ↔ c = 'x' ∨ c = 'X' :=
    fun c => toLower_eq_iff (by decide)
  unfold readParts
  split
  · next c d tail =>
    simp only [hlower]
    split
    · next hc =>
      have hnone : readBody false ('0' :: c :: d :: tail) = none := by
        rcases hc with rfl | rfl <;> simp [readBody, cutDigits, readScale]
      rw [hnone]
      constructor
      · exact fun h => Or.inr ⟨c, d :: tail, rfl, hc, h⟩
      · rintro (h | ⟨_, _, ⟨⟩, -, h⟩)
        · cases h
        · exact h
    · next hc =>
      refine ⟨Or.inl, ?_⟩
      rintro (h | ⟨_, _, ⟨⟩, hc', -⟩)
      · exact h
      · exact absurd hc' hc
  · next hshort =>
    refine ⟨Or.inl, ?_⟩
    rintro (h | ⟨c, body, rfl, hc, h⟩)
    · exact h
    · cases body with
      | nil => cases h
      | cons d tail => exact absurd rfl (hshort c d tail)

theorem map_toLower_iff {name : List Char} (hname : ∀ l ∈ name, l.isLower = true) :
    text.map Char.toLower = name ↔ List.Forall₂ (fun c l => c = l ∨ c = l.toUpper) text name := by
  induction text generalizing name with
  | nil => cases name <;> simp
  | cons c cs ih =>
    cases name with
    | nil => simp
    | cons l ls =>
      rw [List.map_cons, List.cons.injEq, toLower_eq_iff (hname l List.mem_cons_self),
        ih fun x hx => hname x (List.mem_cons_of_mem l hx), List.forall₂_cons]

theorem isInfinityName_iff :
    isInfinityName text = true ↔ InAnyCase "inf" text ∨ InAnyCase "infinity" text := by
  rw [isInfinityName, Bool.or_eq_true, decide_eq_true_eq, decide_eq_true_eq,
    map_toLower_iff (by simp), map_toLower_iff (by simp)]
  rfl

theorem InAnyCase.head {l : Char} {ls : List Char} {name : String} (hname : name.toList = l :: ls)
    (h : InAnyCase name text) : text.head? = some l ∨ text.head? = some l.toUpper := by
  rw [InAnyCase, hname] at h
  cases h with
  | cons hc _ => exact hc.imp (congrArg some) (congrArg some)

/-- A number begins with a digit or a point. -/
theorem NamesRational.head {q : ℚ} (h : NamesRational text q) :
    ∃ c, text.head? = some c ∧ (c = '.' ∨ c.isDigit = true) := by
  have hdigits : ∀ {cs ds}, Digits 10 cs ds → ∀ rest, ∃ c, (cs ++ rest).head? = some c ∧
      (c = '.' ∨ c.isDigit = true) := by
    intro cs ds h rest
    obtain ⟨c, d, tail, rfl, hc⟩ := h.head
    exact ⟨c, rfl, Or.inr hc.isDigit⟩
  have hmantissa : ∀ {cs ws fs}, Mantissa 10 (Digits 10) cs ws fs → ∀ rest,
      ∃ c, (cs ++ rest).head? = some c ∧ (c = '.' ∨ c.isDigit = true) := by
    rintro cs ws fs (hw | hw | ⟨hw, -⟩ | -) rest
    · exact hdigits hw rest
    · rw [List.append_assoc]
      exact hdigits hw _
    · rw [List.append_assoc]
      exact hdigits hw _
    · exact ⟨'.', rfl, Or.inl rfl⟩
  cases h with
  | decimal hm => simpa using hmantissa hm []
  | scaled hm he => exact hmantissa hm _
  | hexadecimal hx hm he => exact ⟨'0', rfl, Or.inr rfl⟩

/-- What a literal without a sign names: an infinity or the number nearest to what it says. -/
def NamesUnsigned (negative : Bool) (text : List Char) (x : Binary64) : Prop :=
  ((InAnyCase "inf" text ∨ InAnyCase "infinity" text) ∧ x = .infinite negative) ∨
    ∃ q, NamesRational text q ∧ Rounds negative q x

theorem NamesUnsigned.head?_ne (h : NamesUnsigned negative text x) (c : Char)
    (hc : c ∈ ['-', '+', 'n', 'N']) : text.head? ≠ some c := by
  have hletter : ∀ c ∈ ['-', '+', 'n', 'N'], c ≠ 'i' ∧ c ≠ 'I' ∧ c ≠ '.' ∧ c.isDigit = false := by
    simp
  obtain ⟨hi, hI, hpoint, hdigit⟩ := hletter c hc
  intro hhead
  rcases h with ⟨hname, -⟩ | ⟨q, hq, -⟩
  · have hfirst : text.head? = some 'i' ∨ text.head? = some 'I' :=
      hname.elim (InAnyCase.head rfl) (InAnyCase.head rfl)
    rw [hhead, Option.some_inj, Option.some_inj] at hfirst
    exact hfirst.elim hi hI
  · obtain ⟨d, hd, hor⟩ := hq.head
    obtain rfl := Option.some_inj.mp (hhead.symm.trans hd)
    rw [hdigit] at hor
    exact hor.elim hpoint Bool.false_ne_true

theorem readUnsigned_iff : readUnsigned negative text = some x ↔ NamesUnsigned negative text x := by
  rw [readUnsigned, NamesUnsigned, ← isInfinityName_iff, ← readParts_iff]
  split
  · next hname =>
    -- no number has the name of an infinity
    have hnumber : ¬(readParts text).bind (·.value? negative) = some x := by
      intro h
      obtain ⟨q, hq, -⟩ := readParts_iff.mp h
      obtain ⟨c, hc, hor⟩ := hq.head
      have hfirst : text.head? = some 'i' ∨ text.head? = some 'I' :=
        (isInfinityName_iff.mp hname).elim (InAnyCase.head rfl) (InAnyCase.head rfl)
      rw [hc, Option.some_inj, Option.some_inj] at hfirst
      rcases hfirst with rfl | rfl <;> simp at hor
    simp [hname, hnumber, eq_comm]
  · next hname => simp [hname]

theorem namesReal_iff : NamesReal text x ↔ (InAnyCase "nan" text ∧ x = .nan) ∨
    ∃ negative body, Signed text negative body ∧ NamesUnsigned negative body x := by
  constructor
  · rintro (hname | ⟨hsign, hname⟩ | ⟨hsign, hq, hround⟩)
    · exact Or.inl ⟨hname, rfl⟩
    · exact Or.inr ⟨_, _, hsign, Or.inl ⟨hname, rfl⟩⟩
    · exact Or.inr ⟨_, _, hsign, Or.inr ⟨_, hq, hround⟩⟩
  · rintro (⟨hname, rfl⟩ | ⟨_, _, hsign, ⟨hname, rfl⟩ | ⟨q, hq, hround⟩⟩)
    · exact .nan hname
    · exact .infinite hsign hname
    · exact .finite hsign hq hround

theorem readReal_iff : readReal text = some x ↔ NamesReal text x := by
  rw [namesReal_iff]
  have hnan : ∀ c ∈ ['-', '+'], ∀ cs, ¬InAnyCase "nan" (c :: cs) := by
    intro c hc cs h
    have hfirst : (c :: cs).head? = some 'n' ∨ (c :: cs).head? = some 'N' := InAnyCase.head rfl h
    have hletter : ∀ c ∈ ['-', '+'], c ≠ 'n' ∧ c ≠ 'N' := by simp
    obtain ⟨hn, hN⟩ := hletter c hc
    exact hfirst.elim (fun he => hn (Option.some_inj.mp he)) fun he => hN (Option.some_inj.mp he)
  unfold readReal
  split
  · rw [exists_signed_minus fun h => h.head?_ne '-' (by decide) rfl, readUnsigned_iff,
      or_iff_right fun h => hnan '-' (by decide) _ h.1]
  · rw [exists_signed_plus fun h => h.head?_ne '+' (by decide) rfl, readUnsigned_iff,
      or_iff_right fun h => hnan '+' (by decide) _ h.1]
  · next hminus hplus =>
    rw [exists_signed_unsigned hminus hplus]
    split
    · next hname =>
      have hname : InAnyCase "nan" text := (map_toLower_iff (by simp)).mp hname
      have hfirst : text.head? = some 'n' ∨ text.head? = some 'N' := InAnyCase.head rfl hname
      have hnumber : ¬NamesUnsigned false text x := fun h =>
        hfirst.elim (h.head?_ne 'n' (by decide)) (h.head?_ne 'N' (by decide))
      rw [and_iff_right hname, or_iff_left hnumber, Option.some_inj, eq_comm]
    · next hname =>
      rw [readUnsigned_iff, or_iff_right fun h => hname ((map_toLower_iff (by simp)).mpr h.1)]

end Numbers

end KernelIR.Number
