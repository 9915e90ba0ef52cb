import Leviathan.Json.Parser

/-!
# What the parser reads

`Written v s` says that `s` is a text of the value `v`, with any blanks where the two renderers
may put some.  The parser reads such a text in front of anything that does not go on with a
number, and stops behind it (`parseValue_written`); this is one statement for both renderers.
-/

variable {P : UInt8 → Bool} {u exp : Bytes} {depth : Nat}

namespace Leviathan.Json

open List

namespace JsonParser

@[simp] theorem advance_zero (p : JsonParser) : p.advance 0 = p := rfl

@[simp] theorem advance_advance (p : JsonParser) (m n : Nat) :
    (p.advance m).advance n = p.advance (m + n) := by
  rw [advance, advance, advance]
  simp only [Nat.add_assoc]

@[simp] theorem advance_failed (p : JsonParser) (n : Nat) : (p.advance n).failed = p.failed := rfl

@[simp] theorem advance_s (p : JsonParser) (n : Nat) : (p.advance n).s = p.s := rfl

@[simp] theorem advance_i (p : JsonParser) (n : Nat) : (p.advance n).i = p.i + n := rfl

end JsonParser

/-- All bytes are blanks. -/
def Blank (w : Bytes) : Prop := ∀ c ∈ w, JsonParser.isBlank c = true

/-- All bytes are digits. -/
def Digits (ds : Bytes) : Prop := ∀ c ∈ ds, JsonParser.isDigit c = true

/-- The text does not begin with such a byte. -/
def NotHead (P : UInt8 → Bool) (t : Bytes) : Prop := ∀ c ∈ t.head?, P c = false

/-- A number of the JSON grammar. -/
def IsJsonNumber (t : Bytes) : Prop :=
  ∃ sign int frac exp, t = sign ++ (int ++ (frac ++ exp)) ∧
    (sign = [] ∨ sign = [45]) ∧
    (int = [48] ∨ ∃ d ds, int = d :: ds ∧ 49 ≤ d ∧ d ≤ 57 ∧ Digits ds) ∧
    (frac = [] ∨ ∃ ds, frac = 46 :: ds ∧ ds ≠ [] ∧ Digits ds) ∧
    (exp = [] ∨ ∃ e esign ds, exp = e :: (esign ++ ds) ∧ (e = 101 ∨ e = 69) ∧
      (esign = [] ∨ esign = [43] ∨ esign = [45]) ∧ ds ≠ [] ∧ Digits ds)

/-- A byte that a number goes on with. -/
def isNumberByte (c : UInt8) : Bool :=
  JsonParser.isDigit c || c.toNat = 46 || c.toNat = 101 || c.toNat = 69

/-- An entry of a text of an object. -/
structure Entry (F : Type) where
  pad : Bytes
  key : Bytes
  value : JsonValue F
  text : Bytes

/-- The text of an entry. -/
def Entry.written {F : Type} (e : Entry F) : Bytes := e.pad ++ (renderStr e.key ++ 58 :: e.text)

/-- Texts with commas between them. -/
def commas : List Bytes → Bytes
  | [] => []
  | [t] => t
  | t :: rest => t ++ 44 :: commas rest

theorem commas_cons (t : Bytes) (rest : List Bytes) : ∃ u, commas (t :: rest) = t ++ u := by
  cases rest with
  | nil => exact ⟨[], (append_nil t).symm⟩
  | cons t' rest => exact ⟨_, rfl⟩

/-- **The texts of a value.** -/
inductive Written {F : Type} (ops : FloatOps F) : JsonValue F → Bytes → Prop where
  | null : Written ops .ofNull (ascii "null")
  | bool (b : Bool) : Written ops (.ofBool b) (if b then ascii "true" else ascii "false")
  | num (x : F) (hnum : IsJsonNumber (ops.toString x))
      (hback : ops.toFloat (ops.toString x) = some x) : Written ops (.ofNum x) (ops.toString x)
  | str (v : Bytes) : Written ops (.ofStr v) (renderStr v)
  | array (items : List (JsonValue F × Bytes)) (w : Bytes) (hw : Blank w)
      (hitems : ∀ e ∈ items, Written ops e.1 e.2) :
      Written ops (.ofArray (items.map Prod.fst)) (91 :: (commas (items.map Prod.snd) ++ (w ++ [93])))
  | object (entries : List (Entry F)) (w : Bytes) (hw : Blank w)
      (hkeys : (entries.map Entry.key).Nodup) (hpads : ∀ e ∈ entries, Blank e.pad)
      (hentries : ∀ e ∈ entries, Written ops e.value e.text) :
      Written ops (.ofObject (entries.map fun e => (e.key, e.value)))
        (123 :: (commas (entries.map Entry.written) ++ (w ++ [125])))
  | pad (w : Bytes) (hw : Blank w) {v : JsonValue F} {s : Bytes} (h : Written ops v s) :
      Written ops v (w ++ s)

namespace JsonParser

variable {p : JsonParser} {s t r w : Bytes} {c : UInt8}

/-! ## Moving over the text -/

theorem rest_advance (p : JsonParser) (n : Nat) : (p.advance n).rest = p.rest.drop n := by
  rw [rest, rest, drop_drop]
  rfl

theorem rest_append (h : p.rest = s ++ t) : (p.advance s.length).rest = t := by
  rw [rest_advance, h, drop_left]

theorem rest_cons (h : p.rest = c :: t) : (p.advance 1).rest = t := by
  rw [rest_advance, h]
  rfl

theorem byteAt_rest (p : JsonParser) (k : Nat) :
    p.byteAt (p.i + k) = ((p.rest[k]?).map fun c => (c.toNat : Int)).getD (-1) := by
  rw [byteAt, rest, getElem?_drop]

theorem cur_cons (h : p.rest = c :: t) : p.cur = c.toNat := by
  have hbyte := byteAt_rest p 0
  rw [Nat.add_zero, h] at hbyte
  exact hbyte

theorem cur_nil (h : p.rest = []) : p.cur = -1 := by
  have hbyte := byteAt_rest p 0
  rw [Nat.add_zero, h] at hbyte
  exact hbyte

theorem length_rest (p : JsonParser) : p.rest.length = p.s.length - p.i := length_drop

theorem index_lt (h : p.rest = c :: t) : p.i + t.length < p.s.length := by
  have hlength := length_rest p
  rw [h, length_cons] at hlength
  omega

/-- The longest run of such bytes. -/
theorem takeWhile_run (hw : ∀ c ∈ w, P c = true) (ht : NotHead P t) : (w ++ t).takeWhile P = w := by
  induction w with
  | nil =>
    cases t with
    | nil => rfl
    | cons c t =>
      rw [nil_append, takeWhile_cons, ht c rfl]
      rfl
  | cons c w ih =>
    rw [cons_append, takeWhile_cons, hw c mem_cons_self, if_pos rfl,
      ih fun d hd => hw d (mem_cons_of_mem c hd)]

theorem skipWs_run (h : p.rest = w ++ t) (hw : Blank w) (ht : NotHead isBlank t) :
    p.skipWs = p.advance w.length := by
  rw [skipWs, h, takeWhile_run hw ht]

theorem skipWs_none (ht : NotHead isBlank p.rest) : p.skipWs = p := by
  have h := skipWs_run (p := p) (w := []) (t := p.rest) rfl (fun c hc => absurd hc not_mem_nil) ht
  exact h

theorem skipDigits_run (h : p.rest = w ++ t) (hw : Digits w) (ht : NotHead isDigit t) :
    p.skipDigits = p.advance w.length := by
  rw [skipDigits, h, takeWhile_run hw ht]

theorem notHead_cons (h : P c = false) : NotHead P (c :: t) := by
  intro d hd
  rw [head?_cons, Option.mem_some_iff] at hd
  rw [← hd]
  exact h

theorem notHead_nil : NotHead P [] := fun _ h => by cases h

theorem notHead_mono {Q : UInt8 → Bool} (h : NotHead P t) (hPQ : ∀ c, Q c = true → P c = true) :
    NotHead Q t := by
  intro c hc
  have hno := h c hc
  cases hQ : Q c with
  | false => rfl
  | true =>
    rw [hPQ c hQ] at hno
    cases hno

/-! ## Numbers -/

theorem isDigit_iff : isDigit c = true ↔ 48 ≤ c.toNat ∧ c.toNat ≤ 57 := by
  rw [isDigit, Bool.and_eq_true, decide_eq_true_iff, decide_eq_true_iff]
  exact Iff.rfl

theorem atDigit_cons (h : p.rest = c :: t) (hc : isDigit c = true) : p.atDigit = true := by
  rw [isDigit_iff] at hc
  rw [atDigit, cur_cons h, Bool.and_eq_true, decide_eq_true_iff, decide_eq_true_iff]
  omega

/-- The integer part is read. -/
theorem numberInt_read {sign int : Bytes} (h : p.rest = sign ++ (int ++ u))
    (hsign : sign = [] ∨ sign = [45])
    (hint : int = [48] ∨ ∃ d ds, int = d :: ds ∧ 49 ≤ d ∧ d ≤ 57 ∧ Digits ds)
    (hu : NotHead isDigit u) : p.numberInt = .ok (p.advance (sign ++ int).length) := by
  have hafter : ∀ q : JsonParser, q.rest = int ++ u →
      q.cur ≠ 45 ∧ (if q.cur = 48 then (.ok (q.advance 1) : Except JsonParser JsonParser)
        else if 49 ≤ q.cur ∧ q.cur ≤ 57 then .ok q.skipDigits else .error q.fail) =
        .ok (q.advance int.length) := by
    intro q hq
    obtain hzero | ⟨d, ds, hd, hlo, hhi, hds⟩ := hint
    · rw [hzero] at hq ⊢
      rw [cur_cons hq]
      exact ⟨by decide, rfl⟩
    · rw [hd] at hq ⊢
      have hlo' : 49 ≤ d.toNat := hlo
      have hhi' : d.toNat ≤ 57 := hhi
      have hdigits : Digits (d :: ds) := by
        intro c hc
        obtain hc | hc := List.mem_cons.mp hc
        · rw [hc, isDigit_iff]
          omega
        · exact hds c hc
      rw [cur_cons hq, if_neg (by omega), if_pos (by omega), skipDigits_run hq hdigits hu]
      exact ⟨by omega, rfl⟩
  unfold numberInt
  obtain hnone | hminus := hsign
  · rw [hnone] at h ⊢
    obtain ⟨hne, hread⟩ := hafter p h
    rw [if_neg hne]
    exact hread
  · rw [hminus] at h ⊢
    have hcur : p.cur = 45 := cur_cons h
    obtain ⟨_, hread⟩ := hafter (p.advance 1) (rest_cons h)
    rw [if_pos hcur]
    refine hread.trans ?_
    rw [advance_advance, length_append, length_singleton]

/-- The parser does not stand in front of this byte. -/
theorem cur_ne (h : NotHead P p.rest) {n : Int} (hn : 0 ≤ n)
    (hP : ∀ c : UInt8, (c.toNat : Int) = n → P c = true) : p.cur ≠ n := by
  cases hrest : p.rest with
  | nil =>
    rw [cur_nil hrest]
    omega
  | cons c t =>
    rw [hrest] at h
    rw [cur_cons hrest]
    intro hc
    have hno := h c rfl
    rw [hP c hc] at hno
    cases hno

theorem isNumberByte_of {n : Nat} (hn : n = 46 ∨ n = 101 ∨ n = 69) (c : UInt8)
    (hc : (c.toNat : Int) = n) : isNumberByte c = true := by
  have hc' : c.toNat = n := by omega
  obtain hn | hn | hn := hn
  · simp [isNumberByte, hc', hn]
  · simp [isNumberByte, hc', hn]
  · simp [isNumberByte, hc', hn]

/-- The digits after a point or an exponent. -/
theorem digits_read {ds : Bytes} (h : p.rest = ds ++ u) (hne : ds ≠ []) (hds : Digits ds)
    (hu : NotHead isDigit u) :
    (if ¬p.atDigit = true then .error p.fail else .ok p.skipDigits : Except JsonParser JsonParser) =
      .ok (p.advance ds.length) := by
  have hdigit : p.atDigit = true := by
    cases ds with
    | nil => exact absurd rfl hne
    | cons d ds => exact atDigit_cons h (hds d mem_cons_self)
  rw [if_neg (not_not_intro hdigit), skipDigits_run h hds hu]

/-- The fraction is read. -/
theorem numberFrac_read {frac : Bytes} (h : p.rest = frac ++ u)
    (hfrac : frac = [] ∨ ∃ ds, frac = 46 :: ds ∧ ds ≠ [] ∧ Digits ds)
    (hu : NotHead (fun c => isDigit c || c.toNat = 46) u) :
    p.numberFrac = .ok (p.advance frac.length) := by
  unfold numberFrac
  obtain hnone | ⟨ds, hds, hne, hdigits⟩ := hfrac
  · rw [hnone, nil_append] at h
    rw [← h] at hu
    have hcur : p.cur ≠ 46 := cur_ne hu (by decide) fun c hc => by
      have hc' : c.toNat = 46 := by omega
      simp [hc']
    rw [if_neg hcur, hnone]
    rfl
  · rw [hds, cons_append] at h
    have hcur : p.cur = 46 := cur_cons h
    have hu' : NotHead isDigit u := notHead_mono hu fun c hc => by simp [hc]
    rw [if_pos hcur, digits_read (rest_cons h) hne hdigits hu', advance_advance, hds,
      length_cons, Nat.add_comm]

/-- The exponent is read. -/
theorem numberExp_read (h : p.rest = exp ++ u)
    (hexp : exp = [] ∨ ∃ e esign ds, exp = e :: (esign ++ ds) ∧ (e = 101 ∨ e = 69) ∧
      (esign = [] ∨ esign = [43] ∨ esign = [45]) ∧ ds ≠ [] ∧ Digits ds)
    (hu : NotHead isNumberByte u) : p.numberExp = .ok (p.advance exp.length) := by
  unfold numberExp
  obtain hnone | ⟨e, esign, ds, hexp, he, hesign, hne, hdigits⟩ := hexp
  · rw [hnone, nil_append] at h
    rw [← h] at hu
    have hcur : ¬(p.cur = 101 ∨ p.cur = 69) := fun hcur => hcur.elim
      (cur_ne hu (by decide) (isNumberByte_of (.inr (.inl rfl))))
      (cur_ne hu (by decide) (isNumberByte_of (.inr (.inr rfl))))
    rw [if_neg hcur, hnone]
    rfl
  · rw [hexp, cons_append, append_assoc] at h
    have hcur : p.cur = 101 ∨ p.cur = 69 := by
      rw [cur_cons h]
      obtain he | he := he
      · rw [he]
        exact .inl rfl
      · rw [he]
        exact .inr rfl
    have hrest := rest_cons h
    have hu' : NotHead isDigit u := notHead_mono hu fun c hc => by simp [isNumberByte, hc]
    rw [if_pos hcur, hexp]
    obtain hs | hs | hs := hesign
    · rw [hs, nil_append] at hrest
      have hdigit : ¬((p.advance 1).cur = 43 ∨ (p.advance 1).cur = 45) := by
        cases ds with
        | nil => exact absurd rfl hne
        | cons d ds =>
          have hd := isDigit_iff.mp (hdigits d mem_cons_self)
          rw [cur_cons hrest]
          omega
      simp only [if_neg hdigit]
      rw [digits_read hrest hne hdigits hu', advance_advance, hs, nil_append,
        length_cons, Nat.add_comm]
    · rw [hs, singleton_append] at hrest
      have hplus : (p.advance 1).cur = 43 := cur_cons hrest
      simp only [if_pos (Or.inl hplus : (p.advance 1).cur = 43 ∨ (p.advance 1).cur = 45)]
      rw [digits_read (rest_cons hrest) hne hdigits hu', advance_advance, advance_advance, hs,
        length_cons, length_append, length_singleton]
      congr 2
      omega
    · rw [hs, singleton_append] at hrest
      have hminus : (p.advance 1).cur = 45 := cur_cons hrest
      simp only [if_pos (Or.inr hminus : (p.advance 1).cur = 43 ∨ (p.advance 1).cur = 45)]
      rw [digits_read (rest_cons hrest) hne hdigits hu', advance_advance, advance_advance, hs,
        length_cons, length_append, length_singleton]
      congr 2
      omega

/-- What follows the integer part does not go on with it. -/
theorem notDigit_after {frac r : Bytes}
    (hfrac : frac = [] ∨ ∃ ds, frac = 46 :: ds ∧ ds ≠ [] ∧ Digits ds)
    (hexp : NotHead isDigit (exp ++ r)) : NotHead isDigit (frac ++ (exp ++ r)) := by
  obtain hnone | ⟨ds, hds, _, _⟩ := hfrac
  · rw [hnone]
    exact hexp
  · rw [hds]
    exact notHead_cons rfl

/-- What follows the fraction does not go on with it. -/
theorem notPoint_after {r : Bytes}
    (hexp : exp = [] ∨ ∃ e esign ds, exp = e :: (esign ++ ds) ∧ (e = 101 ∨ e = 69) ∧
      (esign = [] ∨ esign = [43] ∨ esign = [45]) ∧ ds ≠ [] ∧ Digits ds)
    (hr : NotHead isNumberByte r) : NotHead (fun c => isDigit c || c.toNat = 46) (exp ++ r) := by
  obtain hnone | ⟨e, esign, ds, hexp, he, _, _, _⟩ := hexp
  · rw [hnone]
    refine notHead_mono hr fun c hc => ?_
    rw [Bool.or_eq_true] at hc
    obtain hc | hc := hc
    · simp [isNumberByte, hc]
    · simp [isNumberByte, of_decide_eq_true hc]
  · rw [hexp]
    obtain he | he := he
    · rw [he]
      exact notHead_cons rfl
    · rw [he]
      exact notHead_cons rfl

/-- **A number is read to its end.** -/
theorem parseNumber_read {F : Type} (ops : FloatOps F) (h : p.rest = t ++ r) (ht : IsJsonNumber t)
    (hr : NotHead isNumberByte r) :
    p.parseNumber ops = (p.advance t.length, .ofNum (toNum ops t)) := by
  obtain ⟨sign, int, frac, exp, ht, hsign, hint, hfrac, hexp⟩ := ht
  have hpoint := notPoint_after hexp hr
  have hdigit : NotHead isDigit (exp ++ r) := notHead_mono hpoint fun c hc => by simp [hc]
  have hrest : p.rest = (sign ++ int) ++ (frac ++ (exp ++ r)) := by
    rw [h, ht]
    simp only [append_assoc]
  have hint' : p.numberInt = .ok (p.advance (sign ++ int).length) :=
    numberInt_read (hrest.trans (append_assoc _ _ _)) hsign hint (notDigit_after hfrac hdigit)
  have hrest1 := rest_append hrest
  have hfrac' := numberFrac_read hrest1 hfrac hpoint
  have hexp' := numberExp_read (rest_append hrest1) hexp hr
  have hlength : (sign ++ int).length + frac.length + exp.length = t.length := by
    rw [ht]
    simp only [length_append]
    omega
  have hwhole : p.numberInt >>= numberFrac >>= numberExp = .ok (p.advance t.length) := by
    rw [hint']
    show numberFrac _ >>= numberExp = _
    rw [hfrac']
    show numberExp _ = _
    rw [hexp', advance_advance, advance_advance, ← Nat.add_assoc, hlength]
  rw [parseNumber, hwhole]
  simp only [advance_i, Nat.add_sub_cancel_left]
  rw [h, take_left]

/-! ## Strings -/

/-- One hexadecimal digit is read. -/
theorem hexLoop_cons (h : p.rest = c :: t) {d : Nat} (hd : hexNibble c.toNat = d) (k v : Nat) :
    hexLoop (k + 1) v p = hexLoop k ((v * 16 + d : Nat) : Int) (p.advance 1) := by
  rw [hexLoop, cur_cons h, hd]
  exact if_neg (by omega)

theorem hexNibble_digit : ∀ n < 16, hexNibble (hexDigits.getD n 0).toNat = n := by decide

/-- The four digits of a control byte. -/
theorem parseUnicode_control {n : Nat} (hn : n < 32)
    (h : p.rest = 117 :: 48 :: 48 :: hexDigits.getD (n / 16) 0 :: hexDigits.getD (n % 16) 0 :: t) :
    p.parseUnicode = (p.advance 5, [UInt8.ofNat n]) := by
  have h1 := rest_cons h
  have h2 := rest_cons h1
  have h3 := rest_cons h2
  have h4 := rest_cons h3
  have hroom : ¬((p.advance 1).i + 4 > (p.advance 1).s.length) := by
    have hlt := index_lt h1
    simp only [length_cons] at hlt
    omega
  have hhex : (p.advance 1).hex4 = (p.advance 5, (n : Int)) := by
    rw [hex4, if_neg hroom]
    refine (hexLoop_cons h1 (d := 0) rfl 3 0).trans ?_
    refine (hexLoop_cons h2 (d := 0) rfl 2 _).trans ?_
    refine (hexLoop_cons h3 (hexNibble_digit (n / 16) (by omega)) 1 _).trans ?_
    refine (hexLoop_cons h4 (hexNibble_digit (n % 16) (by omega)) 0 _).trans ?_
    simp only [hexLoop, advance_advance, Prod.mk.injEq, true_and]
    omega
  rw [parseUnicode, hhex]
  simp only
  rw [if_neg (by omega), if_neg (by omega), if_neg (by omega), utf8, if_pos (by omega),
    byteToString, Int.toNat_natCast]

/-- The loop at a backslash. -/
theorem rawLoop_backslash {e : UInt8} (fuel : Nat) (sb : Bytes) (h : p.rest = 92 :: e :: t) :
    rawLoop (fuel + 1) sb p =
      (if (e.toNat : Int) = 34 then rawLoop fuel (sb ++ ascii "\"") (p.advance 2)
      else if (e.toNat : Int) = 92 then rawLoop fuel (sb ++ ascii "\\") (p.advance 2)
      else if (e.toNat : Int) = 47 then rawLoop fuel (sb ++ ascii "/") (p.advance 2)
      else if (e.toNat : Int) = 98 then rawLoop fuel (sb ++ byteToString 8) (p.advance 2)
      else if (e.toNat : Int) = 102 then rawLoop fuel (sb ++ byteToString 12) (p.advance 2)
      else if (e.toNat : Int) = 110 then rawLoop fuel (sb ++ byteToString 10) (p.advance 2)
      else if (e.toNat : Int) = 114 then rawLoop fuel (sb ++ byteToString 13) (p.advance 2)
      else if (e.toNat : Int) = 116 then rawLoop fuel (sb ++ byteToString 9) (p.advance 2)
      else if (e.toNat : Int) = 117 then
        rawLoop fuel (sb ++ (p.advance 1).parseUnicode.2) (p.advance 1).parseUnicode.1
      else ((p.advance 1).fail, [])) := by
  have hlt := index_lt h
  have hrest := rest_cons h
  rw [length_cons] at hlt
  have hquote : ¬(((92 : UInt8).toNat : Int) = 34) := by decide
  have hslash : ((92 : UInt8).toNat : Int) = 92 := rfl
  have hroom : ¬((p.advance 1).i ≥ (p.advance 1).s.length) := by
    show ¬(p.i + 1 ≥ p.s.length)
    omega
  rw [rawLoop, if_neg (by omega)]
  simp only [cur_cons h]
  rw [if_neg hquote, if_pos hslash, if_neg hroom]
  simp only [cur_cons hrest, advance_advance]

/-- The loop at a byte that stands for itself. -/
theorem rawLoop_plain (fuel : Nat) (sb : Bytes) (h : p.rest = c :: t) (hquote : c ≠ 34)
    (hslash : c ≠ 92) : rawLoop (fuel + 1) sb p = rawLoop fuel (sb ++ [c]) (p.advance 1) := by
  have hlt := index_lt h
  have hne : ∀ d : UInt8, c ≠ d → ¬((c.toNat : Int) = d.toNat) := by
    intro d hd hcd
    exact hd (UInt8.toNat_inj.mp (by omega))
  rw [rawLoop, if_neg (by omega)]
  simp only [cur_cons h]
  have hquote' : ¬((c.toNat : Int) = 34) := hne 34 hquote
  have hslash' : ¬((c.toNat : Int) = 92) := hne 92 hslash
  rw [if_neg hquote', if_neg hslash', byteToString, Int.toNat_natCast, UInt8.ofNat_toNat]

/-- **One written byte of a string is read.** -/
theorem rawLoop_escape (fuel : Nat) (sb : Bytes) (h : p.rest = escape c ++ t) :
    rawLoop (fuel + 1) sb p = rawLoop fuel (sb ++ [c]) (p.advance (escape c).length) := by
  by_cases h34 : c = 34
  · rw [h34] at h ⊢
    exact rawLoop_backslash fuel sb h
  by_cases h92 : c = 92
  · rw [h92] at h ⊢
    exact rawLoop_backslash fuel sb h
  by_cases h8 : c = 8
  · rw [h8] at h ⊢
    exact rawLoop_backslash fuel sb h
  by_cases h12 : c = 12
  · rw [h12] at h ⊢
    exact rawLoop_backslash fuel sb h
  by_cases h10 : c = 10
  · rw [h10] at h ⊢
    exact rawLoop_backslash fuel sb h
  by_cases h13 : c = 13
  · rw [h13] at h ⊢
    exact rawLoop_backslash fuel sb h
  by_cases h9 : c = 9
  · rw [h9] at h ⊢
    exact rawLoop_backslash fuel sb h
  by_cases hcontrol : c < 32
  · have hn : c.toNat < 32 := hcontrol
    have hescape : escape c = [92, 117, 48, 48, hexDigits.getD (c.toNat / 16) 0,
        hexDigits.getD (c.toNat % 16) 0] := by
      have hhigh : (c.toNat >>> 4) &&& 15 = c.toNat / 16 := by
        rw [Nat.shiftRight_eq_div_pow, Nat.and_two_pow_sub_one_eq_mod _ 4]
        omega
      have hlow : c.toNat &&& 15 = c.toNat % 16 := Nat.and_two_pow_sub_one_eq_mod _ 4
      simp only [escape, if_neg h34, if_neg h92, if_neg h8, if_neg h12, if_neg h10, if_neg h13,
        if_neg h9, if_pos hcontrol, hhigh, hlow]
      rfl
    rw [hescape] at h ⊢
    have hunicode := parseUnicode_control hn (rest_cons h)
    refine (rawLoop_backslash fuel sb h).trans ?_
    show rawLoop fuel (sb ++ (p.advance 1).parseUnicode.2) (p.advance 1).parseUnicode.1 = _
    rw [hunicode, advance_advance, UInt8.ofNat_toNat]
    rfl
  · have hescape : escape c = [c] := by
      simp only [escape, if_neg h34, if_neg h92, if_neg h8, if_neg h12, if_neg h10, if_neg h13,
        if_neg h9, if_neg hcontrol]
    rw [hescape] at h ⊢
    exact rawLoop_plain fuel sb h h34 h92

theorem rawLoop_string (fuel : Nat) (sb v : Bytes) (hfuel : v.length < fuel)
    (h : p.rest = v.flatMap escape ++ 34 :: t) :
    rawLoop fuel sb p = (p.advance ((v.flatMap escape).length + 1), sb ++ v) := by
  induction v generalizing fuel sb p with
  | nil =>
    cases fuel with
    | zero => exact absurd hfuel (Nat.not_lt_zero _)
    | succ fuel =>
      have hrest : p.rest = 34 :: t := h
      have hlt := index_lt hrest
      rw [rawLoop, if_neg (by omega), cur_cons hrest, append_nil]
      rfl
  | cons c v ih =>
    cases fuel with
    | zero => exact absurd hfuel (Nat.not_lt_zero _)
    | succ fuel =>
      rw [flatMap_cons, append_assoc] at h
      rw [rawLoop_escape fuel sb h, ih fuel _ (by simpa using hfuel) (rest_append h)]
      simp only [advance_advance, flatMap_cons, length_append, append_assoc,
        singleton_append, Nat.add_assoc]

theorem escape_ne_nil (c : UInt8) : escape c ≠ [] := by
  unfold escape
  repeat' split
  all_goals exact cons_ne_nil _ _

theorem length_le_escaped (v : Bytes) : v.length ≤ (v.flatMap escape).length := by
  induction v with
  | nil => exact Nat.le_refl 0
  | cons c v ih =>
    have hpos := length_pos_of_ne_nil (escape_ne_nil c)
    rw [flatMap_cons, length_append, length_cons]
    omega

theorem renderStr_eq (v : Bytes) : renderStr v = 34 :: (v.flatMap escape ++ [34]) := by
  rw [renderStr, append_assoc]
  rfl

/-- **A written string is read.** -/
theorem parseRawString_read {v : Bytes} (h : p.rest = renderStr v ++ t) :
    p.parseRawString = (p.advance (renderStr v).length, v) := by
  have hrest : p.rest = 34 :: (v.flatMap escape ++ 34 :: t) := by
    rw [h, renderStr]
    simp only [append_assoc]
    rfl
  have hlt := index_lt hrest
  have hlen := length_le_escaped v
  rw [length_append, length_cons] at hlt
  rw [parseRawString, rawLoop_string _ [] v (by omega) (rest_cons hrest), advance_advance]
  simp only [renderStr, length_append, nil_append, Prod.mk.injEq, and_true]
  congr 1

/-! ## Values -/

section Values

variable {F : Type} (ops : FloatOps F)

theorem parseLit_read (lit : Bytes) (v : JsonValue F) (hlit : lit ≠ []) (h : p.rest = lit ++ t) :
    p.parseLit lit v = (p.advance lit.length, v) := by
  have hlength := length_rest p
  have hpos := length_pos_of_ne_nil hlit
  rw [h, length_append] at hlength
  have hgo : ¬(p.i + lit.length > p.s.length ∨ p.rest.take lit.length ≠ lit) := by
    rw [h, take_left]
    intro hbad
    obtain hbad | hbad := hbad
    · omega
    · exact hbad rfl
  rw [parseLit, if_neg hgo]

/-- The parser reads this text of a value, and stops behind it. -/
def Reads (v : JsonValue F) (s : Bytes) : Prop :=
  ∀ (p : JsonParser) (r : Bytes) (fuel depth : Nat), p.rest = s ++ r → NotHead isNumberByte r →
    p.failed = false → depth + height v ≤ 128 → 2 * s.length + 1 ≤ fuel →
    parseValue ops fuel depth p = some (p.advance s.length, v)

/-- No blanks are in front of another byte. -/
theorem skipWs_at (h : p.rest = c :: t) (hc : isBlank c = false) : p.skipWs = p := by
  refine skipWs_none ?_
  rw [h]
  exact notHead_cons hc

/-- A method of the parser by the first byte of the value. -/
theorem parseValue_head (hdepth : depth ≤ 128) (fuel : Nat) (h : p.rest = c :: t)
    (hc : isBlank c = false) :
    parseValue ops (fuel + 1) depth p =
      (if (c.toNat : Int) = 123 then
        if (p.advance 1).skipWs.cur = 125 then some ((p.advance 1).skipWs.advance 1, .ofObject [])
        else objectLoop ops fuel depth [] (p.advance 1).skipWs
      else if (c.toNat : Int) = 91 then
        if (p.advance 1).skipWs.cur = 93 then some ((p.advance 1).skipWs.advance 1, .ofArray [])
        else arrayLoop ops fuel depth [] (p.advance 1).skipWs
      else if (c.toNat : Int) = 34 then some (p.parseRawString.1, .ofStr p.parseRawString.2)
      else if (c.toNat : Int) = 116 then some (p.parseLit (ascii "true") (.ofBool true))
      else if (c.toNat : Int) = 102 then some (p.parseLit (ascii "false") (.ofBool false))
      else if (c.toNat : Int) = 110 then some (p.parseLit (ascii "null") .ofNull)
      else if (c.toNat : Int) = 45 ∨ 48 ≤ (c.toNat : Int) ∧ (c.toNat : Int) ≤ 57 then
        some (p.parseNumber ops)
      else some (p.fail, .ofNull)) := by
  have hskip := skipWs_at h hc
  rw [parseValue, if_neg (by omega)]
  simp only [hskip, cur_cons h]

/-- Blanks in front of a value are passed over. -/
theorem reads_pad {v : JsonValue F} (hw : Blank w) (hs : Reads ops v s) : Reads ops v (w ++ s) := by
  intro p r fuel depth hrest hr hfailed hdepth hfuel
  rw [append_assoc] at hrest
  rw [length_append] at hfuel
  have hskip : p.skipWs = (p.advance w.length).skipWs := by
    rw [skipWs, skipWs, rest_append hrest, advance_advance, hrest]
    congr 1
    clear hrest hfuel
    induction w with
    | nil => exact (Nat.zero_add _).symm
    | cons c w ih =>
      rw [cons_append, takeWhile_cons, hw c mem_cons_self, if_pos rfl,
        length_cons, length_cons, ih fun d hd => hw d (mem_cons_of_mem c hd)]
      omega
  have hread := hs (p.advance w.length) r fuel depth (rest_append hrest) hr hfailed hdepth (by omega)
  rw [advance_advance, ← length_append] at hread
  rw [← hread]
  cases fuel with
  | zero => omega
  | succ fuel =>
    have hdepth' : ¬depth > 128 := by omega
    rw [parseValue, parseValue, if_neg hdepth', if_neg hdepth', hskip]

theorem reads_null : Reads ops .ofNull (ascii "null") := by
  intro p r fuel depth hrest _ _ hdepth hfuel
  cases fuel with
  | zero => omega
  | succ fuel =>
    refine (parseValue_head ops (by omega) fuel hrest rfl).trans ?_
    show some (p.parseLit (ascii "null") .ofNull) = _
    rw [parseLit_read _ .ofNull (by decide) hrest]

theorem reads_bool (b : Bool) :
    Reads ops (.ofBool b) (if b then ascii "true" else ascii "false") := by
  intro p r fuel depth hrest _ _ hdepth hfuel
  cases fuel with
  | zero => omega
  | succ fuel =>
    cases b with
    | true =>
      refine (parseValue_head ops (by omega) fuel hrest rfl).trans ?_
      exact congrArg some (parseLit_read (ascii "true") (.ofBool true) (by decide) hrest)
    | false =>
      refine (parseValue_head ops (by omega) fuel hrest rfl).trans ?_
      exact congrArg some (parseLit_read (ascii "false") (.ofBool false) (by decide) hrest)

theorem reads_str (v : Bytes) : Reads ops (.ofStr v) (renderStr v) := by
  intro p r fuel depth hrest _ _ hdepth hfuel
  cases fuel with
  | zero => omega
  | succ fuel =>
    have hhead : p.rest = 34 :: (v.flatMap escape ++ ascii "\"" ++ r) := by
      rw [hrest, renderStr]
      simp only [append_assoc]
      rfl
    refine (parseValue_head ops (by omega) fuel hhead rfl).trans ?_
    show some (p.parseRawString.1, JsonValue.ofStr p.parseRawString.2) = _
    rw [parseRawString_read hrest]

/-- The first byte of a number. -/
theorem number_head (ht : IsJsonNumber t) :
    ∃ c u, t = c :: u ∧ (c.toNat = 45 ∨ 48 ≤ c.toNat ∧ c.toNat ≤ 57) := by
  obtain ⟨sign, int, frac, exp, ht, hsign, hint, _, _⟩ := ht
  obtain hnone | hminus := hsign
  · obtain hzero | ⟨d, ds, hd, hlo, hhi, _⟩ := hint
    · rw [hnone, hzero] at ht
      exact ⟨48, _, ht, .inr ⟨Nat.le_refl _, by decide⟩⟩
    · rw [hnone, hd] at ht
      have hlo' : 49 ≤ d.toNat := hlo
      have hhi' : d.toNat ≤ 57 := hhi
      exact ⟨d, _, ht, .inr ⟨by omega, by omega⟩⟩
  · rw [hminus] at ht
    exact ⟨45, _, ht, .inl rfl⟩

theorem number_head_blank (hc : c.toNat = 45 ∨ 48 ≤ c.toNat ∧ c.toNat ≤ 57) :
    isBlank c = false := by
  cases hb : isBlank c with
  | false => rfl
  | true =>
    simp only [isBlank, Bool.or_eq_true, decide_eq_true_eq] at hb
    obtain ((hb | hb) | hb) | hb := hb
    all_goals
      rw [hb] at hc
      exact absurd hc (by decide)

theorem reads_num (x : F) (hnum : IsJsonNumber (ops.toString x))
    (hback : ops.toFloat (ops.toString x) = some x) :
    Reads ops (.ofNum x) (ops.toString x) := by
  intro p r fuel depth hrest hr _ hdepth hfuel
  obtain ⟨c, u, hcu, hc⟩ := number_head hnum
  cases fuel with
  | zero => omega
  | succ fuel =>
    have hhead : p.rest = c :: (u ++ r) := by
      rw [hrest, hcu]
      rfl
    refine (parseValue_head ops (by omega) fuel hhead (number_head_blank hc)).trans ?_
    rw [if_neg (by omega), if_neg (by omega), if_neg (by omega), if_neg (by omega),
      if_neg (by omega), if_neg (by omega), if_pos (by omega),
      parseNumber_read ops hrest hnum hr, toNum, hback]
    rfl

/-- What stands behind the last value of a text does not go on with it. -/
theorem notNumber_close {d : UInt8} (hw : Blank w) (hd : isNumberByte d = false) :
    NotHead isNumberByte (w ++ d :: t) := by
  cases w with
  | nil => exact notHead_cons hd
  | cons c w =>
    refine notHead_cons ?_
    have hc := hw c mem_cons_self
    simp only [isBlank, Bool.or_eq_true, decide_eq_true_eq] at hc
    obtain ((hc | hc) | hc) | hc := hc
    all_goals
      rw [hc]
      rfl

/-- **The items of an array are read.** -/
theorem arrayLoop_read (items : List (JsonValue F × Bytes)) (hne : items ≠ []) (hw : Blank w)
    (hreads : ∀ e ∈ items, Reads ops e.1 e.2) (hheight : ∀ e ∈ items, depth + 1 + height e.1 ≤ 128)
    (arr : List (JsonValue F)) (fuel : Nat)
    (h : p.rest = commas (items.map Prod.snd) ++ (w ++ 93 :: r)) (hfailed : p.failed = false)
    (hfuel : 2 * (commas (items.map Prod.snd)).length + 2 ≤ fuel) :
    arrayLoop ops fuel depth arr p =
      some (p.advance ((commas (items.map Prod.snd)).length + w.length + 1),
        .ofArray (arr ++ items.map Prod.fst)) := by
  induction items generalizing fuel arr p with
  | nil => exact absurd rfl hne
  | cons e rest ih =>
    have hread := hreads e mem_cons_self
    have hhigh := hheight e mem_cons_self
    cases fuel with
    | zero => omega
    | succ fuel =>
      rw [arrayLoop, hfailed, if_neg Bool.false_ne_true]
      cases rest with
      | nil =>
        have hrest : p.rest = e.2 ++ (w ++ 93 :: r) := h
        have hlen : 2 * e.2.length + 2 ≤ fuel + 1 := hfuel
        have hclose := rest_append hrest
        rw [hread p _ fuel (depth + 1) hrest (notNumber_close hw rfl) hfailed hhigh
          (by omega)]
        simp only [advance_failed, hfailed]
        rw [if_neg Bool.false_ne_true, skipWs_run hclose hw (notHead_cons rfl)]
        have hcur : ((p.advance e.2.length).advance w.length).cur = 93 :=
          cur_cons (rest_append hclose)
        rw [hcur, if_pos rfl, advance_advance, advance_advance]
        rfl
      | cons e' rest =>
        have hrest : p.rest = e.2 ++ 44 :: (commas ((e' :: rest).map Prod.snd) ++
            (w ++ 93 :: r)) := by
          rw [h]
          exact append_assoc _ _ _
        have hcommas : (commas ((e :: e' :: rest).map Prod.snd)).length =
            e.2.length + ((commas ((e' :: rest).map Prod.snd)).length + 1) :=
          length_append
        have hnext := rest_append hrest
        rw [hread p _ fuel (depth + 1) hrest (notHead_cons rfl) hfailed hhigh (by omega)]
        simp only [advance_failed, hfailed]
        have hskip := skipWs_at hnext rfl
        have hcur : (p.advance e.2.length).cur = 44 := cur_cons hnext
        rw [if_neg Bool.false_ne_true, hskip, hcur, if_neg (by decide),
          if_neg (not_not_intro rfl)]
        rw [ih (cons_ne_nil _ _) (fun x hx => hreads x (mem_cons_of_mem e hx))
          (fun x hx => hheight x (mem_cons_of_mem e hx)) _ fuel (rest_cons hnext) hfailed
          (by omega), hcommas, advance_advance, advance_advance]
        simp only [append_assoc, singleton_append, map_cons]
        congr 3
        omega

/-- The loop of an object reads one entry. -/
theorem objectLoop_entry (e : Entry F) (hpad : Blank e.pad) (hread : Reads ops e.value e.text)
    (hheight : depth + 1 + height e.value ≤ 128) (m : List (Bytes × JsonValue F))
    (hnew : e.key ∉ keys m) (fuel : Nat) (h : p.rest = e.written ++ t) (ht : NotHead isNumberByte t)
    (hfailed : p.failed = false) (hfuel : 2 * e.text.length + 1 ≤ fuel) :
    objectLoop ops (fuel + 1) depth m p =
      (let p := (p.advance e.written.length).skipWs
      if p.cur = 125 then some (p.advance 1, .ofObject (m ++ [(e.key, e.value)]))
      else if p.cur ≠ 44 then some (p.fail, .ofNull)
      else objectLoop ops fuel depth (m ++ [(e.key, e.value)]) (p.advance 1)) := by
  have hrest : p.rest = e.pad ++ (renderStr e.key ++ 58 :: (e.text ++ t)) := by
    rw [h, Entry.written]
    simp only [append_assoc, cons_append]
  have hkey := rest_append hrest
  have hcolon := rest_append hkey
  have htext := rest_cons hcolon
  have hpadded : p.skipWs = p.advance e.pad.length := skipWs_run hrest hpad (notHead_cons rfl)
  have hquote : (p.advance e.pad.length).cur = 34 := cur_cons hkey
  have hskip := skipWs_at hcolon rfl
  have hcur : ((p.advance e.pad.length).advance (renderStr e.key).length).cur = 58 := cur_cons hcolon
  have hlength : e.pad.length + (renderStr e.key).length + 1 + e.text.length = e.written.length := by
    simp only [Entry.written, length_append, length_cons]
    omega
  rw [objectLoop, hfailed, if_neg Bool.false_ne_true]
  simp only [hpadded]
  rw [hquote, if_neg (not_not_intro rfl)]
  simp only [parseRawString_read hkey]
  simp only [advance_failed, hfailed]
  rw [if_neg Bool.false_ne_true]
  simp only [hskip]
  rw [hcur, if_neg (not_not_intro rfl), hread _ t fuel (depth + 1) htext ht hfailed hheight hfuel]
  simp only [advance_failed, hfailed, advance_advance, hlength, withKey_new hnew]
  rw [if_neg Bool.false_ne_true]

/-- **The entries of an object are read.** -/
theorem objectLoop_read (entries : List (Entry F)) (hne : entries ≠ []) (hw : Blank w)
    (hpads : ∀ e ∈ entries, Blank e.pad) (hreads : ∀ e ∈ entries, Reads ops e.value e.text)
    (hheight : ∀ e ∈ entries, depth + 1 + height e.value ≤ 128) (m : List (Bytes × JsonValue F))
    (hkeys : (keys m ++ entries.map Entry.key).Nodup) (fuel : Nat)
    (h : p.rest = commas (entries.map Entry.written) ++ (w ++ 125 :: r))
    (hfailed : p.failed = false)
    (hfuel : 2 * (commas (entries.map Entry.written)).length + 2 ≤ fuel) :
    objectLoop ops fuel depth m p =
      some (p.advance ((commas (entries.map Entry.written)).length + w.length + 1),
        .ofObject (m ++ entries.map fun e => (e.key, e.value))) := by
  induction entries generalizing fuel m p with
  | nil => exact absurd rfl hne
  | cons e rest ih =>
    have hnew : e.key ∉ keys m := by
      intro hmem
      exact (List.nodup_append.mp hkeys).2.2 _ hmem _ mem_cons_self rfl
    have htext : e.text.length < e.written.length := by
      simp only [Entry.written, length_append, length_cons]
      omega
    cases fuel with
    | zero => omega
    | succ fuel =>
      cases rest with
      | nil =>
        have hrest : p.rest = e.written ++ (w ++ 125 :: r) := h
        have hlen : 2 * e.written.length + 2 ≤ fuel + 1 := hfuel
        have hclose := rest_append hrest
        have hcur : ((p.advance e.written.length).advance w.length).cur = 125 :=
          cur_cons (rest_append hclose)
        rw [objectLoop_entry ops e (hpads e mem_cons_self)
          (hreads e mem_cons_self) (hheight e mem_cons_self) m hnew fuel hrest
          (notNumber_close hw rfl) hfailed (by omega)]
        simp only [skipWs_run hclose hw (notHead_cons rfl)]
        rw [hcur, if_pos rfl, advance_advance, advance_advance]
        rfl
      | cons e' rest =>
        have hrest : p.rest = e.written ++ 44 :: (commas ((e' :: rest).map Entry.written) ++
            (w ++ 125 :: r)) := by
          rw [h]
          exact append_assoc _ _ _
        have hcommas : (commas ((e :: e' :: rest).map Entry.written)).length =
            e.written.length + ((commas ((e' :: rest).map Entry.written)).length + 1) :=
          length_append
        have hnext := rest_append hrest
        have hskip := skipWs_at hnext rfl
        have hcur : (p.advance e.written.length).cur = 44 := cur_cons hnext
        have hkeys' : (keys (m ++ [(e.key, e.value)]) ++ (e' :: rest).map Entry.key).Nodup := by
          rw [keys, map_append, append_assoc]
          exact hkeys
        rw [objectLoop_entry ops e (hpads e mem_cons_self)
          (hreads e mem_cons_self) (hheight e mem_cons_self) m hnew fuel hrest
          (notHead_cons rfl) hfailed (by omega)]
        simp only [hskip]
        rw [hcur, if_neg (by decide), if_neg (not_not_intro rfl)]
        rw [ih (cons_ne_nil _ _) (fun x hx => hpads x (mem_cons_of_mem e hx))
          (fun x hx => hreads x (mem_cons_of_mem e hx))
          (fun x hx => hheight x (mem_cons_of_mem e hx)) _ hkeys' fuel (rest_cons hnext)
          hfailed (by omega), hcommas, advance_advance, advance_advance]
        simp only [append_assoc, singleton_append, map_cons]
        congr 3
        omega

/-- A text begins, behind its blanks, with a byte that closes nothing. -/
theorem written_head {v : JsonValue F} {s : Bytes} (h : Written ops v s) :
    ∃ w c u, s = w ++ c :: u ∧ Blank w ∧ isBlank c = false ∧ (c.toNat : Int) ≠ 93 := by
  have hnil : Blank [] := fun c hc => absurd hc not_mem_nil
  induction h with
  | null => exact ⟨[], 110, _, rfl, hnil, rfl, by decide⟩
  | bool b =>
    cases b with
    | true => exact ⟨[], 116, _, rfl, hnil, rfl, by decide⟩
    | false => exact ⟨[], 102, _, rfl, hnil, rfl, by decide⟩
  | num x hnum _ =>
    obtain ⟨c, u, hcu, hc⟩ := number_head hnum
    exact ⟨[], c, u, hcu, hnil, number_head_blank hc, by omega⟩
  | str v =>
    refine ⟨[], 34, v.flatMap escape ++ ascii "\"", ?_, hnil, rfl, by decide⟩
    rw [renderStr]
    simp only [append_assoc]
    rfl
  | array items w _ _ => exact ⟨[], 91, _, rfl, hnil, rfl, by decide⟩
  | object entries w _ _ _ _ => exact ⟨[], 123, _, rfl, hnil, rfl, by decide⟩
  | pad w hw _ ih =>
    obtain ⟨w', c, u, hs, hw', hc, hne⟩ := ih
    refine ⟨w ++ w', c, u, ?_, ?_, hc, hne⟩
    · rw [hs, append_assoc]
    · intro d hd
      exact (List.mem_append.mp hd).elim (hw d) (hw' d)

/-- An array reads its first value from behind the blanks, or from in front of them. -/
theorem arrayLoop_skipWs (hdepth : depth + 1 ≤ 128) (fuel : Nat) (arr : List (JsonValue F))
    (h : p.skipWs.skipWs = p.skipWs) (hfailed : p.failed = false) :
    arrayLoop ops fuel depth arr p.skipWs = arrayLoop ops fuel depth arr p := by
  have hvalue : ∀ fuel, parseValue ops fuel (depth + 1) p.skipWs = parseValue ops fuel (depth + 1) p := by
    intro fuel
    have hdepth' : ¬depth + 1 > 128 := by omega
    cases fuel with
    | zero => rfl
    | succ fuel => rw [parseValue, parseValue, if_neg hdepth', if_neg hdepth', h]
  have hskipped : p.skipWs.failed = false := hfailed
  cases fuel with
  | zero => rfl
  | succ fuel =>
    rw [arrayLoop, arrayLoop, hfailed, hskipped, hvalue, if_neg Bool.false_ne_true,
      if_neg Bool.false_ne_true]

/-- **Every text of a value is read.** -/
theorem reads_written {v : JsonValue F} {s : Bytes} (h : Written ops v s) : Reads ops v s := by
  induction h with
  | null => exact reads_null ops
  | bool b => exact reads_bool ops b
  | num x hnum hback => exact reads_num ops x hnum hback
  | str v => exact reads_str ops v
  | pad w hw _ ih => exact reads_pad ops hw ih
  | array items w hw hitems ih =>
    intro p r fuel depth hrest hr hfailed hdepth hfuel
    simp only [cons_append, append_assoc, nil_append] at hrest
    simp only [length_cons, length_append, length_nil] at hfuel ⊢
    have hbody := rest_cons hrest
    cases fuel with
    | zero => omega
    | succ fuel =>
      refine (parseValue_head ops (by omega) fuel hrest rfl).trans ?_
      refine (if_neg (by decide)).trans ((if_pos (by decide)).trans ?_)
      cases items with
      | nil =>
        have hempty : (p.advance 1).rest = w ++ 93 :: r := hbody
        have hskip := skipWs_run hempty hw (notHead_cons rfl)
        have hcur : ((p.advance 1).advance w.length).cur = 93 := cur_cons (rest_append hempty)
        rw [hskip, hcur, if_pos rfl, advance_advance, advance_advance]
        simp only [map_nil, commas, length_nil]
        congr 3
        omega
      | cons e rest =>
        obtain ⟨w', c, u, htext, hw', hc, hne⟩ :=
          written_head ops (hitems e mem_cons_self)
        obtain ⟨u', hcommas⟩ := commas_cons e.2 (rest.map Prod.snd)
        have hfirst : (p.advance 1).rest = w' ++ c :: (u ++ (u' ++ (w ++ 93 :: r))) := by
          rw [hbody, map_cons, hcommas, htext]
          simp only [append_assoc, cons_append]
        have hskip := skipWs_run hfirst hw' (notHead_cons hc)
        have hagain : (p.advance 1).skipWs.skipWs = (p.advance 1).skipWs := by
          rw [hskip]
          exact skipWs_at (rest_append hfirst) hc
        have hcur : (p.advance 1).skipWs.cur ≠ 93 := by
          rw [hskip, cur_cons (rest_append hfirst)]
          exact hne
        have hheight : ∀ x ∈ e :: rest, depth + 1 + height x.1 ≤ 128 := by
          intro x hx
          have hitem : height x.1 + 1 ≤ height (.ofArray ((e :: rest).map Prod.fst)) :=
            height_item (mem_map_of_mem hx)
          omega
        have hdepth' := hheight e mem_cons_self
        rw [if_neg hcur, arrayLoop_skipWs ops (by omega) fuel [] hagain hfailed,
          arrayLoop_read ops (e :: rest) (cons_ne_nil _ _) hw ih hheight [] fuel hbody
            hfailed (by omega), advance_advance, nil_append]
        congr 3
        omega
  | object entries w hw hkeys hpads _ ih =>
    intro p r fuel depth hrest hr hfailed hdepth hfuel
    simp only [cons_append, append_assoc, nil_append] at hrest
    simp only [length_cons, length_append, length_nil] at hfuel ⊢
    have hbody := rest_cons hrest
    cases fuel with
    | zero => omega
    | succ fuel =>
      refine (parseValue_head ops (by omega) fuel hrest rfl).trans ?_
      refine (if_pos (by decide)).trans ?_
      cases entries with
      | nil =>
        have hempty : (p.advance 1).rest = w ++ 125 :: r := hbody
        have hskip := skipWs_run hempty hw (notHead_cons rfl)
        have hcur : ((p.advance 1).advance w.length).cur = 125 := cur_cons (rest_append hempty)
        rw [hskip, hcur, if_pos rfl, advance_advance, advance_advance]
        simp only [map_nil, commas, length_nil]
        congr 3
        omega
      | cons e rest =>
        have hpad := hpads e mem_cons_self
        obtain ⟨u', hcommas⟩ := commas_cons e.written (rest.map Entry.written)
        have hfirst : (p.advance 1).rest = e.pad ++ 34 :: (e.key.flatMap escape ++
            34 :: 58 :: (e.text ++ (u' ++ (w ++ 125 :: r)))) := by
          rw [hbody, map_cons, hcommas, Entry.written, renderStr_eq]
          simp only [append_assoc, cons_append, nil_append]
        have hskip := skipWs_run hfirst hpad (notHead_cons rfl)
        have hcur : (p.advance 1).skipWs.cur = 34 := by
          rw [hskip]
          exact cur_cons (rest_append hfirst)
        have hheight : ∀ x ∈ e :: rest, depth + 1 + height x.value ≤ 128 := by
          intro x hx
          have hfield : height x.value + 1 ≤
              height (.ofObject ((e :: rest).map fun e => (e.key, e.value))) :=
            height_field (e := (x.key, x.value)) (mem_map_of_mem hx)
          omega
        have hagain : (p.advance 1).skipWs.skipWs = (p.advance 1).skipWs := by
          rw [hskip]
          exact skipWs_at (rest_append hfirst) rfl
        have hloop : objectLoop ops fuel depth [] (p.advance 1).skipWs =
            objectLoop ops fuel depth [] (p.advance 1) := by
          have hskipped : (p.advance 1).skipWs.failed = false := hfailed
          have hadvanced : (p.advance 1).failed = false := hfailed
          cases fuel with
          | zero => rfl
          | succ fuel =>
            rw [objectLoop, objectLoop, hskipped, hadvanced, if_neg Bool.false_ne_true,
              if_neg Bool.false_ne_true, hagain]
        rw [hcur, if_neg (by decide), hloop,
          objectLoop_read ops (e :: rest) (cons_ne_nil _ _) hw hpads ih hheight [] hkeys
            fuel hbody hfailed (by omega), advance_advance, nil_append]
        congr 3
        omega

end Values

end JsonParser

end Leviathan.Json
