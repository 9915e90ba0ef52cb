import Leviathan.Runtime.Utf8

/-!
# What the decoder finds

At each offset the decoder finds the scalar whose bytes stand there, or, where there is none, the
maximal subpart: the longest stretch that some scalar's bytes begin with, and one byte where there is
no such stretch.
-/

namespace Leviathan.Utf8

open List

/-- The bytes of a scalar begin so. -/
def Initial (u : Bytes) : Prop := ∃ c : Char, u <+: String.utf8EncodeChar c

/-- `seg` is the maximal subpart at the start of `seg ++ rest`, where no scalar stands. -/
structure MaximalSubpart (seg rest : Bytes) : Prop where
  none : ∀ c, ¬String.utf8EncodeChar c <+: seg ++ rest
  initial : seg.length = 1 ∨ seg ≠ [] ∧ Initial seg
  longest : ∀ more, more ≠ [] → more <+: rest → ¬Initial (seg ++ more)

/-- What a result says about the bytes from the offset on. -/
inductive Head (t : Bytes) (d : Decoded) : Prop where
  | scalar (c : Char) (rest : Bytes) (ht : t = String.utf8EncodeChar c ++ rest)
      (hd : d = ⟨c.toNat, (String.utf8EncodeChar c).length, true⟩)
  | replaced (seg rest : Bytes) (ht : t = seg ++ rest) (hmax : MaximalSubpart seg rest)
      (hcp : d.cp = 0xFFFD) (hlen : d.len = seg.length)

/-! ### The trailing bytes -/

variable {k : Nat} {t conts rest : Bytes}

section Trailing

variable {s : Bytes} {i need : Nat}

theorem getElem?_of_drop (h : s.drop k = t) : s[k]? = t.head? := by
  rw [← h, head?_drop]

theorem drop_succ_of_drop {b : UInt8} (h : s.drop k = b :: t) : s.drop (k + 1) = t := by
  rw [← tail_drop, h, tail_cons]

/-- A trailing byte is taken. -/
theorem trailing_cont {cp : Nat} {b : UInt8} (ht : s.drop (i + k) = b :: t) (hk : k ≤ need)
    (hb : Cont b) :
    trailing s i need k cp = trailing s i need (k + 1) (push cp b) := by
  have hin : ¬(b.toNat < 0x80 ∨ b.toNat > 0xBF) := by
    unfold Cont at hb
    omega
  rw [trailing, if_pos hk, getElem?_of_drop ht]
  dsimp only [head?_cons]
  rw [if_neg hin]

theorem trailing_all (hfit : ∀ b ∈ conts, Cont b) : ∀ {k cp : Nat},
    s.drop (i + k) = conts ++ rest → k + conts.length = need + 1 →
      trailing s i need k cp = ⟨value cp conts, need + 1, true⟩ := by
  induction conts with
  | nil =>
    intro k cp _ hlength
    rw [trailing, if_neg (by simp only [length_nil] at hlength; omega)]
    rfl
  | cons b conts ih =>
    intro k cp ht hlength
    rw [length_cons] at hlength
    have hnext : s.drop (i + (k + 1)) = conts ++ rest := drop_succ_of_drop (k := i + k) ht
    rw [trailing_cont ht (by omega) (hfit b mem_cons_self)]
    exact ih (fun b hb => hfit b (mem_cons_of_mem _ hb)) hnext (by omega)

theorem trailing_breaks (hfit : ∀ b ∈ conts, Cont b) (hrest : ∀ b ∈ rest.head?, ¬Cont b) :
    ∀ {k cp : Nat},
    s.drop (i + k) = conts ++ rest → k + conts.length < need + 1 →
      trailing s i need k cp = ⟨0xFFFD, k + conts.length, true⟩ := by
  induction conts with
  | nil =>
    intro k cp ht hlength
    rw [nil_append] at ht
    rw [trailing, if_pos (by simp only [length_nil] at hlength; omega), getElem?_of_drop ht]
    cases hhead : rest.head? with
    | none => rfl
    | some b =>
      have hout := hrest b hhead
      unfold Cont at hout
      exact if_pos (by omega)
  | cons b conts ih =>
    intro k cp ht hlength
    rw [length_cons] at hlength
    have hnext : s.drop (i + (k + 1)) = conts ++ rest := drop_succ_of_drop (k := i + k) ht
    rw [trailing_cont ht (by omega) (hfit b mem_cons_self),
      ih (fun b hb => hfit b (mem_cons_of_mem _ hb)) hnext (by omega),
      length_cons, Nat.add_right_comm, Nat.add_assoc]

/-- Trailing bytes, as many as there are but no more than `n`. -/
theorem exists_conts (n : Nat) (t : Bytes) : ∃ conts rest, t = conts ++ rest ∧
    (∀ b ∈ conts, Cont b) ∧ (conts.length = n ∨ conts.length < n ∧ ∀ b ∈ rest.head?, ¬Cont b) := by
  induction n generalizing t with
  | zero => exact ⟨[], t, rfl, nofun, .inl rfl⟩
  | succ n ih =>
    cases t with
    | nil => exact ⟨[], [], rfl, nofun, .inr ⟨Nat.succ_pos n, nofun⟩⟩
    | cons b t =>
      by_cases hb : Cont b
      · obtain ⟨conts, rest, rfl, hfit, hlength⟩ := ih t
        refine ⟨b :: conts, rest, rfl, List.forall_mem_cons.mpr ⟨hb, hfit⟩, ?_⟩
        rw [length_cons]
        exact hlength.imp (congrArg (· + 1)) (And.imp_left Nat.succ_lt_succ)
      · refine ⟨[], b :: t, rfl, nofun, .inr ⟨Nat.succ_pos n, fun b' hb' => ?_⟩⟩
        obtain rfl := Option.some.inj hb'
        exact hb

end Trailing

/-! ### What the bytes of scalars begin with -/

variable {b0 : UInt8}

/-- A scalar that stands behind a byte that is not ASCII. -/
theorem sequence_of_prefix {c : Char} (hb : 0x7F < b0.toNat)
    (h : String.utf8EncodeChar c <+: b0 :: t) :
    ∃ b1 conts l rest, Sequence c b0 b1 conts l ∧ t = b1 :: (conts ++ rest) := by
  obtain ⟨rest, hrest⟩ := h
  rcases lead_of_encode c with ⟨b, hbytes, hnat, hle⟩ | ⟨b0', b1, conts, l, hseq⟩
  · rw [hbytes] at hrest
    obtain ⟨rfl, -⟩ := List.cons.inj hrest
    omega
  · rw [hseq.bytes] at hrest
    obtain ⟨rfl, rfl⟩ := List.cons.inj hrest
    exact ⟨b1, conts, l, rest, hseq, rfl⟩

variable {b1 : UInt8}

/-- What fits up to here may be completed. -/
theorem initial_cons_cons_iff {bs : Bytes} : Initial (b0 :: b1 :: bs) ↔
    ∃ l, lead b0.toNat = some l ∧ l.lo ≤ b1.toNat ∧ b1.toNat ≤ l.hi ∧ bs.length + 1 ≤ l.need ∧
      ∀ b ∈ bs, Cont b := by
  constructor
  · rintro ⟨c, rest, hrest⟩
    rcases lead_of_encode c with ⟨b, hbytes, -, -⟩ | ⟨b0', b1', conts, l, hseq⟩
    · rw [hbytes] at hrest
      exact nomatch (List.cons.inj hrest).2
    · rw [hseq.bytes, cons_append, cons_append] at hrest
      obtain ⟨rfl, htail⟩ := List.cons.inj hrest
      obtain ⟨rfl, rfl⟩ := List.cons.inj htail
      refine ⟨l, hseq.lead, hseq.lo, hseq.hi, ?_, fun b hb => hseq.fit b (mem_append_left _ hb)⟩
      have hlength := hseq.length
      rw [length_append] at hlength
      omega
  · rintro ⟨l, hl, hlo, hhi, hlength, hfit⟩
    let more := List.replicate (l.need - 1 - bs.length) (0x80 : UInt8)
    have hmore : ∀ b ∈ bs ++ more, Cont b := by
      intro b hb
      rcases List.mem_append.mp hb with hb | hb
      · exact hfit b hb
      · rw [eq_of_mem_replicate hb]
        exact ⟨by decide, by decide⟩
    obtain ⟨c, -, hbytes⟩ := encode_of_lead hl hlo hhi
      (by rw [length_append, length_replicate]; omega) hmore
    exact ⟨c, more, hbytes.symm⟩

/-- A byte that begins nothing longer. -/
theorem maximalSubpart_singleton (hb : 0x7F < b0.toNat)
    (hnext : ∀ l, lead b0.toNat = some l → ∀ b1 ∈ rest.head?, ¬(l.lo ≤ b1.toNat ∧ b1.toNat ≤ l.hi)) :
    MaximalSubpart [b0] rest where
  none := by
    intro c h
    obtain ⟨b1, conts, l, rest', hseq, rfl⟩ := sequence_of_prefix hb h
    exact hnext l hseq.lead b1 rfl ⟨hseq.lo, hseq.hi⟩
  initial := .inl rfl
  longest := by
    intro more hne hmore h
    cases more with
    | nil => exact hne rfl
    | cons b1 more =>
      obtain ⟨rest', rfl⟩ := hmore
      obtain ⟨l, hl, hlo, hhi, -⟩ := initial_cons_cons_iff.mp h
      exact hnext l hl b1 rfl ⟨hlo, hhi⟩

/-- Bytes that fit, before one that does not. -/
theorem maximalSubpart_of_breaks {l : Lead} (hb : 0x7F < b0.toNat) (hl : lead b0.toNat = some l)
    (hlo : l.lo ≤ b1.toNat) (hhi : b1.toNat ≤ l.hi) (hlength : conts.length + 1 < l.need)
    (hfit : ∀ b ∈ conts, Cont b) (hrest : ∀ b ∈ rest.head?, ¬Cont b) :
    MaximalSubpart (b0 :: b1 :: conts) rest where
  none := by
    intro c h
    rw [cons_append, cons_append] at h
    obtain ⟨b1', conts', l', rest', hseq, ht⟩ := sequence_of_prefix hb h
    obtain ⟨rfl, hsplit⟩ := List.cons.inj ht
    obtain rfl := Option.some.inj (hl.symm.trans hseq.lead)
    have hfull := hseq.length
    rcases List.append_eq_append_iff.mp hsplit with ⟨more, rfl, rfl⟩ | ⟨more, rfl, -⟩
    · cases more with
      | nil =>
        rw [append_nil] at hfull
        omega
      | cons b more =>
        exact hrest b rfl (hseq.fit b (mem_append_right _ mem_cons_self))
    · rw [length_append] at hlength
      omega
  initial := .inr ⟨cons_ne_nil _ _,
    initial_cons_cons_iff.mpr ⟨l, hl, hlo, hhi, Nat.le_of_lt hlength, hfit⟩⟩
  longest := by
    intro more hne hmore h
    cases more with
    | nil => exact hne rfl
    | cons b more =>
      obtain ⟨rest', rfl⟩ := hmore
      obtain ⟨-, -, -, -, -, hall⟩ := initial_cons_cons_iff.mp h
      exact hrest b rfl (hall b (mem_append_right _ mem_cons_self))

/-! ### The decoder -/

section Decoder

variable {s : Bytes} {i : Nat}

/-- A lead byte and a second byte that fits. -/
theorem utf8DecodeAt_of_lead {l : Lead} (ht : s.drop i = b0 :: b1 :: t)
    (hl : lead b0.toNat = some l) (hlo : l.lo ≤ b1.toNat) (hhi : b1.toNat ≤ l.hi) :
    utf8DecodeAt s i = trailing s i l.need 2 (push l.cp b1) := by
  have hb0 : 0xC2 ≤ b0.toNat := by
    rcases lead_eq_some_iff.mp hl with h | h | h <;> omega
  rw [utf8DecodeAt, getElem?_of_drop ht, getElem?_of_drop (drop_succ_of_drop ht)]
  dsimp only [head?_cons]
  rw [if_neg (by omega), if_neg (by omega), hl]
  exact if_neg (by omega)

/-- **The bytes of a scalar** decode to it. -/
theorem utf8DecodeAt_encode {c : Char} (ht : s.drop i = String.utf8EncodeChar c ++ rest) :
    utf8DecodeAt s i = ⟨c.toNat, (String.utf8EncodeChar c).length, true⟩ := by
  rcases lead_of_encode c with ⟨b, hbytes, hnat, hle⟩ | ⟨b0, b1, conts, l, hseq⟩
  · rw [hbytes] at ht ⊢
    rw [utf8DecodeAt, getElem?_of_drop ht, ← hnat]
    exact if_pos (by omega)
  · rw [hseq.bytes] at ht ⊢
    rw [utf8DecodeAt_of_lead ht hseq.lead hseq.lo hseq.hi]
    have hconts : s.drop (i + 2) = conts ++ rest := drop_succ_of_drop (drop_succ_of_drop ht)
    have hlength := hseq.length
    rw [trailing_all hseq.fit hconts (by omega), hseq.value, length_cons, length_cons,
      hlength]

/-- **What stands at an offset** is found. -/
theorem head_utf8DecodeAt (ht : s.drop i = t) (hne : t ≠ []) : Head t (utf8DecodeAt s i) := by
  cases t with
  | nil => exact absurd rfl hne
  | cons b0 t =>
    by_cases h7F : b0.toNat ≤ 0x7F
    · have hchar : (Char.ofNatAux b0.toNat (.inl (by omega))).toNat = b0.toNat := rfl
      have hbytes : String.utf8EncodeChar (Char.ofNatAux b0.toNat (.inl (by omega))) = [b0] := by
        rw [← utf8Encode_toNat, hchar, utf8Encode, if_pos h7F, UInt8.ofNat_toNat]
      have hstands : b0 :: t = String.utf8EncodeChar (Char.ofNatAux b0.toNat (.inl (by omega))) ++ t := by
        rw [hbytes, singleton_append]
      exact .scalar _ t hstands (utf8DecodeAt_encode (ht.trans hstands))
    · have hfirst : ∀ {d : Decoded}, d.cp = 0xFFFD → d.len = 1 →
          (∀ l, lead b0.toNat = some l → ∀ b1 ∈ t.head?, ¬(l.lo ≤ b1.toNat ∧ b1.toNat ≤ l.hi)) →
            Head (b0 :: t) d := fun hcp hlen hnext =>
        .replaced [b0] t rfl (maximalSubpart_singleton (by omega) hnext) hcp hlen
      have hget := getElem?_of_drop ht
      cases hl : lead b0.toNat with
      | none =>
        have hdecoded : (utf8DecodeAt s i).cp = 0xFFFD ∧ (utf8DecodeAt s i).len = 1 := by
          rw [utf8DecodeAt, hget]
          dsimp only [head?_cons]
          rw [if_neg h7F, hl]
          split <;> exact ⟨rfl, rfl⟩
        refine hfirst hdecoded.1 hdecoded.2 fun l hl' => ?_
        rw [hl] at hl'
        cases hl'
      | some l =>
        have hBF : ¬b0.toNat ≤ 0xBF := by
          rcases lead_eq_some_iff.mp hl with h | h | h <;> omega
        by_cases hsecond : ∃ b1 t', t = b1 :: t' ∧ l.lo ≤ b1.toNat ∧ b1.toNat ≤ l.hi
        · obtain ⟨b1, t', rfl, hlo, hhi⟩ := hsecond
          have hneed : 1 ≤ l.need := by
            rcases lead_eq_some_iff.mp hl with h | h | h <;> omega
          obtain ⟨conts, rest, rfl, hfit, hlength⟩ := exists_conts (l.need - 1) t'
          have hconts : s.drop (i + 2) = conts ++ rest :=
            drop_succ_of_drop (drop_succ_of_drop ht)
          rcases hlength with hlength | ⟨hlength, hrest⟩
          · obtain ⟨c, -, hbytes⟩ := encode_of_lead hl hlo hhi (by omega) hfit
            have hstands : b0 :: b1 :: (conts ++ rest) = String.utf8EncodeChar c ++ rest := by
              rw [hbytes, cons_append, cons_append]
            exact .scalar c rest hstands (utf8DecodeAt_encode (ht.trans hstands))
          · have hdecoded := utf8DecodeAt_of_lead ht hl hlo hhi
            rw [trailing_breaks hfit hrest hconts (by omega)] at hdecoded
            refine .replaced (b0 :: b1 :: conts) rest rfl ?_ (by rw [hdecoded]) ?_
            · exact maximalSubpart_of_breaks (by omega) hl hlo hhi (by omega) hfit hrest
            · rw [hdecoded, length_cons, length_cons, Nat.add_comm]
        · have hdecoded : utf8DecodeAt s i = ⟨0xFFFD, 1, true⟩ := by
            rw [utf8DecodeAt, hget, getElem?_of_drop (drop_succ_of_drop ht)]
            dsimp only [head?_cons]
            rw [if_neg h7F, if_neg hBF, hl]
            cases t with
            | nil => rfl
            | cons b1 t' =>
              have hout : b1.toNat < l.lo ∨ b1.toNat > l.hi := by
                by_contra hin
                exact hsecond ⟨b1, t', rfl, by omega, by omega⟩
              exact if_pos hout
          refine hfirst (by rw [hdecoded]) (by rw [hdecoded]) fun l' hl' b1 hb1 hin => ?_
          obtain rfl := Option.some.inj (hl.symm.trans hl')
          obtain ⟨t', rfl⟩ := List.head?_eq_some_iff.mp hb1
          exact hsecond ⟨b1, t', rfl, hin⟩

end Decoder

end Leviathan.Utf8
