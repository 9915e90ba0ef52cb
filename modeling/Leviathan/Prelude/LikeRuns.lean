import Leviathan.Prelude.Like

/-!
# What `like` decides

A turn of the loop keeps `Open`: the text is in the language of the pattern exactly if there is still
a match to find.  Giving up the choices before a later `%` is the exchange of
`mem_language_of_later_start`; at the end of the text an earlier choice would have to do with less
text than the pieces between here and the last `%` have taken.

No turn can be repeated forever: `star` goes up, or it stays and `mark` goes up, or both stay and the
index into the text goes up.
-/

namespace Leviathan.Prelude

open Wildcard List

variable {fold : Bool} {text pattern : Bytes} {tb : UInt8} {s s' : LikeState}

/-! ### The head of the pattern -/

/-- What a turn does is decided by the first piece of the rest of the pattern. -/
inductive Turn (fold : Bool) (pattern : Bytes) (tb : UInt8) (s : LikeState) : Prop where
  | ends (hpieces : foldedPieces fold (pattern.drop s.j) = [])
      (hturn : likeTurn fold pattern tb s = s.back)
  | one (b : UInt8) (len : Nat) (hbound : s.j + len ≤ pattern.length)
      (hpieces : foldedPieces fold (pattern.drop s.j) =
        .one (foldByte fold b) :: foldedPieces fold (pattern.drop (s.j + len)))
      (hturn : likeTurn fold pattern tb s =
        if foldByte fold b = foldByte fold tb then some { s with i := s.i + 1, j := s.j + len }
        else s.back)
  | anyOne (hbound : s.j + 1 ≤ pattern.length)
      (hpieces : foldedPieces fold (pattern.drop s.j) =
        .anyOne :: foldedPieces fold (pattern.drop (s.j + 1)))
      (hturn : likeTurn fold pattern tb s = some { s with i := s.i + 1, j := s.j + 1 })
  | anyRun (hbound : s.j + 1 ≤ pattern.length)
      (hpieces : foldedPieces fold (pattern.drop s.j) =
        .anyRun :: foldedPieces fold (pattern.drop (s.j + 1)))
      (hturn : likeTurn fold pattern tb s =
        some { s with star := some s.j, mark := s.i, j := s.j + 1 })

theorem turn_of_pattern (fold : Bool) (pattern : Bytes) (tb : UInt8) (s : LikeState) :
    Turn fold pattern tb s := by
  have hnext : pattern[s.j + 1]? = (pattern.drop s.j).tail.head? := by
    rw [tail_drop, head?_drop]
  have hrest : ∀ len, pattern.drop (s.j + len) = (pattern.drop s.j).drop len := fun len =>
    List.drop_drop.symm
  have hbound : ∀ len, len ≤ (pattern.drop s.j).length → 0 < len → s.j + len ≤ pattern.length := by
    intro len hlen hpos
    rw [length_drop] at hlen
    omega
  have hhead := head?_drop (l := pattern) (i := s.j)
  generalize hp : pattern.drop s.j = p at hnext hrest hbound hhead
  cases p with
  | nil =>
    refine .ends (by rw [hp]; rfl) ?_
    rw [likeTurn, ← hhead]
    rfl
  | cons b rest =>
    by_cases h95 : b = 95
    · subst h95
      refine .anyOne (hbound 1 (by simp) Nat.one_pos) (by rw [hp, hrest]; rfl) ?_
      rw [likeTurn, ← hhead]
      rfl
    · by_cases h37 : b = 37
      · subst h37
        refine .anyRun (hbound 1 (by simp) Nat.one_pos) (by rw [hp, hrest]; rfl) ?_
        rw [likeTurn, ← hhead]
        rfl
      · by_cases h92 : b = 92
        · subst h92
          cases rest with
          | nil =>
            refine .one 92 1 (hbound 1 (by simp) Nat.one_pos)
              (by rw [hp, hrest]; rfl) ?_
            rw [likeTurn, ← hhead, hnext]
            rfl
          | cons lit rest =>
            refine .one lit 2 (hbound 2 (by simp) Nat.two_pos)
              (by rw [hp, hrest]; rfl) ?_
            rw [likeTurn, ← hhead, hnext]
            rfl
        · have hpieces : pieces (b :: rest) = .one b :: pieces rest := by
            rw [pieces] <;> simp_all
          refine .one b 1 (hbound 1 (by simp) Nat.one_pos) ?_ ?_
          · rw [hp, hrest, foldedPieces, hpieces]
            rfl
          · rw [likeTurn, ← hhead]
            simp [h92]

/-! ### What a state stands for -/

/-- There is a match of the rest of the pattern here, or of the pattern behind the last `%` from a
later place. -/
def Open (fold : Bool) (text pattern : Bytes) (s : LikeState) : Prop :=
  (text.map (foldByte fold)).drop s.i ∈ language (foldedPieces fold (pattern.drop s.j)) ∨
    ∃ k, s.star = some k ∧ ∃ d, (text.map (foldByte fold)).drop (s.mark + 1 + d) ∈
      language (foldedPieces fold (pattern.drop (k + 1)))

/-- The pieces between the last `%` and the index into the pattern have taken the text between the
mark and the index into the text. -/
structure Aligned (fold : Bool) (pattern : Bytes) (s : LikeState) : Prop where
  bound : s.j ≤ pattern.length
  between : ∀ k, s.star = some k → k < s.j ∧ ∃ w, .anyRun ∉ w ∧
    foldedPieces fold (pattern.drop (k + 1)) = w ++ foldedPieces fold (pattern.drop s.j) ∧
    s.mark + w.length = s.i

/-- Where the last `%` ends. -/
def LikeState.behindStar (s : LikeState) : Nat := s.star.elim 0 (· + 1)

/-- What goes up from turn to turn. -/
def Later (text pattern : Bytes) : LikeState → LikeState → Prop :=
  InvImage (Prod.Lex (· < ·) (Prod.Lex (· < ·) (· < ·))) fun s =>
    (pattern.length - s.behindStar, text.length - s.mark, text.length - s.i)

theorem wellFounded_later (text pattern : Bytes) : WellFounded (Later text pattern) :=
  InvImage.wf _ (WellFounded.prod_lex wellFounded_lt (WellFounded.prod_lex wellFounded_lt wellFounded_lt))

/-- A good turn. -/
structure Goes (fold : Bool) (text pattern : Bytes) (s s' : LikeState) : Prop where
  aligned : Aligned fold pattern s'
  open_iff : Open fold text pattern s ↔ Open fold text pattern s'
  later : Later text pattern s' s

/-- What may become of a state. -/
def TurnsTo (fold : Bool) (text pattern : Bytes) (s : LikeState) : Option LikeState → Prop
  | some s' => Goes fold text pattern s s'
  | none => ¬Open fold text pattern s

section Steps

variable (ha : Aligned fold pattern s) (hi : text[s.i]? = some tb)

include hi in
theorem drop_eq_of_byte : (text.map (foldByte fold)).drop s.i =
    foldByte fold tb :: (text.map (foldByte fold)).drop (s.i + 1) := by
  obtain ⟨hlt, rfl⟩ := List.getElem?_eq_some_iff.mp hi
  have hlt' : s.i < (text.map (foldByte fold)).length := by rwa [length_map]
  rw [drop_eq_getElem_cons hlt', getElem_map]

include hi in
theorem lt_of_byte : s.i < text.length := (List.getElem?_eq_some_iff.mp hi).1

include ha hi in
/-- A piece takes the byte. -/
theorem goes_of_piece {p : Piece UInt8} {len : Nat} (hp : p ≠ .anyRun)
    (hbound : s.j + len ≤ pattern.length)
    (hpieces : foldedPieces fold (pattern.drop s.j) =
      p :: foldedPieces fold (pattern.drop (s.j + len)))
    (htakes : ∀ v, foldByte fold tb :: v ∈
        language (p :: foldedPieces fold (pattern.drop (s.j + len))) ↔
      v ∈ language (foldedPieces fold (pattern.drop (s.j + len)))) :
    Goes fold text pattern s { s with i := s.i + 1, j := s.j + len } where
  aligned := by
    refine ⟨hbound, fun k hk => ?_⟩
    obtain ⟨hlt, w, hw, hsplit, hmark⟩ := ha.between k hk
    refine ⟨Nat.lt_add_right len hlt, w ++ [p], ?_, ?_, ?_⟩
    · intro hmem
      rcases List.mem_append.mp hmem with hmem | hmem
      · exact hw hmem
      · exact hp (List.mem_singleton.mp hmem).symm
    · rw [hsplit, hpieces, append_assoc, singleton_append]
    · rw [length_append, length_singleton, ← Nat.add_assoc, hmark]
  open_iff := by
    unfold Open
    rw [drop_eq_of_byte hi, hpieces, htakes]
  later := by
    have hlt := lt_of_byte hi
    refine Prod.Lex.right _ (Prod.Lex.right _ ?_)
    show text.length - (s.i + 1) < text.length - s.i
    omega

include ha hi in
/-- The rest of the pattern does not match here. -/
theorem turnsTo_back (hno : (text.map (foldByte fold)).drop s.i ∉
    language (foldedPieces fold (pattern.drop s.j))) : TurnsTo fold text pattern s s.back := by
  have hopen : Open fold text pattern s ↔ ∃ k, s.star = some k ∧
      ∃ d, (text.map (foldByte fold)).drop (s.mark + 1 + d) ∈
        language (foldedPieces fold (pattern.drop (k + 1))) := or_iff_right hno
  unfold LikeState.back
  cases hstar : s.star with
  | none =>
    show ¬Open fold text pattern s
    rw [hopen, hstar]
    exact fun ⟨k, hk, _⟩ => nomatch hk
  | some k =>
    obtain ⟨hlt, w, hw, -, hmark⟩ := ha.between k hstar
    have hbound := ha.bound
    have hbyte := lt_of_byte hi
    refine ⟨⟨?_, fun k' hk' => ?_⟩, ?_, ?_⟩
    · show k + 1 ≤ pattern.length
      omega
    · obtain rfl := Option.some.inj hk'
      exact ⟨Nat.lt_succ_self k, [], nofun, rfl, rfl⟩
    · rw [hopen, hstar]
      constructor
      · rintro ⟨k', hk', d, hd⟩
        obtain rfl := Option.some.inj hk'
        cases d with
        | zero => exact .inl hd
        | succ d =>
          refine .inr ⟨k, rfl, d, ?_⟩
          have hplace : s.mark + 1 + 1 + d = s.mark + 1 + (d + 1) := by omega
          show (text.map (foldByte fold)).drop (s.mark + 1 + 1 + d) ∈ _
          rwa [hplace]
      · rintro (hd | ⟨k', hk', d, hd⟩)
        · exact ⟨k, rfl, 0, hd⟩
        · obtain rfl := Option.some.inj hk'
          refine ⟨k, rfl, d + 1, ?_⟩
          have hplace : s.mark + 1 + (d + 1) = s.mark + 1 + 1 + d := by omega
          rw [hplace]
          exact hd
    · have hbehind : s.behindStar = k + 1 := by
        rw [LikeState.behindStar, hstar, Option.elim_some]
      unfold Later InvImage
      dsimp only
      rw [hbehind]
      refine Prod.Lex.right _ (Prod.Lex.left _ _ ?_)
      show text.length - (s.mark + 1) < text.length - s.mark
      omega

include ha in
/-- A run begins: what an earlier run could still find, this one finds. -/
theorem goes_of_run (hbound : s.j + 1 ≤ pattern.length)
    (hpieces : foldedPieces fold (pattern.drop s.j) =
      .anyRun :: foldedPieces fold (pattern.drop (s.j + 1))) :
    Goes fold text pattern s { s with star := some s.j, mark := s.i, j := s.j + 1 } where
  aligned := by
    refine ⟨hbound, fun k hk => ?_⟩
    obtain rfl := Option.some.inj hk
    exact ⟨Nat.lt_succ_self _, [], nofun, rfl, rfl⟩
  open_iff := by
    have hhere : ∀ n, (text.map (foldByte fold)).drop n ∈
        language (foldedPieces fold (pattern.drop s.j)) ↔
        ∃ d, (text.map (foldByte fold)).drop (n + d) ∈
          language (foldedPieces fold (pattern.drop (s.j + 1))) := fun n => by
      rw [hpieces, mem_language_anyRun]
      simp only [drop_drop]
    have hafter : (∃ d, (text.map (foldByte fold)).drop (s.i + d) ∈
        language (foldedPieces fold (pattern.drop (s.j + 1)))) →
        Open fold text pattern { s with star := some s.j, mark := s.i, j := s.j + 1 } := by
      rintro ⟨d, hd⟩
      cases d with
      | zero => exact .inl hd
      | succ d =>
        refine .inr ⟨s.j, rfl, d, ?_⟩
        have hplace : s.i + 1 + d = s.i + (d + 1) := by omega
        show (text.map (foldByte fold)).drop (s.i + 1 + d) ∈ _
        rwa [hplace]
    constructor
    · rintro (hd | ⟨k, hk, d, hd⟩)
      · exact hafter ((hhere s.i).mp hd)
      · obtain ⟨-, w, hw, hsplit, hmark⟩ := ha.between k hk
        rw [hsplit, hpieces, Nat.add_assoc] at hd
        obtain ⟨e, he⟩ := mem_language_of_later_start hw hd
        rw [hmark] at he
        exact hafter ⟨e, he⟩
    · rintro (hd | ⟨k, hk, d, hd⟩)
      · exact .inl ((hhere s.i).mpr ⟨0, hd⟩)
      · obtain rfl := Option.some.inj hk
        exact .inl ((hhere s.i).mpr ⟨1 + d, by rwa [← Nat.add_assoc]⟩)
  later := by
    refine Prod.Lex.left _ _ ?_
    have hstar : s.behindStar ≤ s.j := by
      unfold LikeState.behindStar
      cases hstar : s.star with
      | none => exact Nat.zero_le _
      | some k => exact (ha.between k hstar).1
    show pattern.length - (s.j + 1) < pattern.length - s.behindStar
    omega

include ha hi in
/-- **A turn** keeps what there is to find. -/
theorem turnsTo_likeTurn : TurnsTo fold text pattern s (likeTurn fold pattern tb s) := by
  cases turn_of_pattern fold pattern tb s with
  | ends hpieces hturn =>
    rw [hturn]
    refine turnsTo_back ha hi ?_
    rw [hpieces, mem_language_nil, drop_eq_of_byte hi]
    exact cons_ne_nil _ _
  | one b len hbound hpieces hturn =>
    rw [hturn]
    split
    · next heq =>
        refine goes_of_piece (p := .one _) ha hi nofun hbound hpieces fun v => ?_
        rw [mem_language_one, heq]
        exact ⟨fun ⟨v', hv, h⟩ => (List.cons.inj hv).2 ▸ h, fun h => ⟨v, rfl, h⟩⟩
    · next hne =>
        refine turnsTo_back ha hi ?_
        rw [hpieces, mem_language_one, drop_eq_of_byte hi]
        exact fun ⟨v, hv, _⟩ => hne (List.cons.inj hv).1.symm
  | anyOne hbound hpieces hturn =>
    rw [hturn]
    refine goes_of_piece (p := .anyOne) ha hi nofun hbound hpieces fun v => ?_
    rw [mem_language_anyOne]
    exact ⟨fun ⟨_, _, hv, h⟩ => (List.cons.inj hv).2 ▸ h, fun h => ⟨_, v, rfl, h⟩⟩
  | anyRun hbound hpieces hturn =>
    rw [hturn]
    exact goes_of_run ha hbound hpieces

end Steps

/-! ### The end of the text -/

/-- The rest of the pattern is made of `%`. -/
theorem forall_pieces_iff (fold : Bool) (p : Bytes) :
    (∀ q ∈ foldedPieces fold p, q = .anyRun) ↔ (p.dropWhile (· == 37)).isEmpty = true := by
  fun_induction pieces p with
  | case1 => simp [foldedPieces, pieces]
  | case2 b rest ih => simp [foldedPieces, pieces, Piece.map]
  | case3 rest ih => simp [foldedPieces, pieces, Piece.map]
  | case4 rest ih =>
    rw [dropWhile_cons_of_pos (by rfl), ← ih]
    simp [foldedPieces, pieces, Piece.map]
  | case5 b rest h92 h95 h37 ih =>
    have hb : (b == 37) = false := by simpa using h37
    have hpieces : pieces (b :: rest) = .one b :: pieces rest := by
      rw [pieces] <;> simp_all
    rw [dropWhile_cons_of_neg (by simp [hb]), foldedPieces, hpieces]
    simp [Piece.map]

/-- At the end of the text an earlier choice can do no better. -/
theorem open_iff_of_end (ha : Aligned fold pattern s) (hi : text[s.i]? = none) :
    Open fold text pattern s ↔ ((pattern.drop s.j).dropWhile (· == 37)).isEmpty = true := by
  have hend : text.length ≤ s.i := List.getElem?_eq_none_iff.mp hi
  rw [← forall_pieces_iff fold, ← nil_mem_language_iff]
  have hnil : (text.map (foldByte fold)).drop s.i = [] :=
    drop_eq_nil_of_le (by rwa [length_map])
  unfold Open
  rw [hnil]
  refine or_iff_left_of_imp ?_
  rintro ⟨k, hk, d, hd⟩
  obtain ⟨-, w, hw, hsplit, hmark⟩ := ha.between k hk
  rw [hsplit] at hd
  obtain ⟨-, hrest⟩ := drop_mem_language hw hd
  have hpast : (text.map (foldByte fold)).length ≤ s.mark + 1 + d + w.length := by
    rw [length_map]
    omega
  rwa [drop_drop, drop_eq_nil_of_le hpast] at hrest

/-! ### The loop -/

theorem settles_likeLoop {accepted : Bool} (s : LikeState) (ha : Aligned fold pattern s)
    (hopen : Open fold text pattern s ↔ accepted = true) :
    Settles (fun n => likeLoop fold text pattern n s) accepted := by
  induction s using (wellFounded_later text pattern).induction with
  | _ s ih =>
    cases hi : text[s.i]? with
    | none =>
      refine .succ (.pure accepted) fun n => ?_
      rw [likeLoop, hi, Option.some.injEq, Bool.eq_iff_iff, ← open_iff_of_end ha hi]
      exact hopen
    | some tb =>
      have hturn := turnsTo_likeTurn ha hi
      cases hs : likeTurn fold pattern tb s with
      | none =>
        rw [hs] at hturn
        refine .succ (.pure accepted) fun n => ?_
        rw [likeLoop, hi]
        dsimp only
        rw [hs]
        cases accepted with
        | false => rfl
        | true => exact absurd (hopen.mpr rfl) hturn
      | some s' =>
        rw [hs] at hturn
        refine .succ (ih s' hturn.later hturn.aligned (hturn.open_iff.symm.trans hopen))
          fun n => ?_
        rw [likeLoop, hi]
        dsimp only
        rw [hs]

/-- The text, folded, is in the language of the folded pattern. -/
theorem settles_likeMatch (text pattern : Bytes) (fold : Bool) :
    ∃ matched, Settles (likeMatch text pattern fold) matched ∧
      (matched = true ↔
        text.map (foldByte fold) ∈ language ((pieces pattern).map (Piece.map (foldByte fold)))) := by
  classical
  refine ⟨decide (text.map (foldByte fold) ∈
    language ((pieces pattern).map (Piece.map (foldByte fold)))), ?_, decide_eq_true_iff⟩
  refine settles_likeLoop _ ⟨Nat.zero_le _, nofun⟩ ?_
  rw [decide_eq_true_iff]
  exact or_iff_left fun ⟨_, hk, _⟩ => nomatch hk

/-- The fold of an ASCII letter. -/
abbrev lower : UInt8 → UInt8 := foldByte true

/-- **LIKE.**  For every text and pattern the loops of `like` and `ilike` end.  `like` answers
whether the text is in the language of the pattern, `ilike` whether the text with its letters folded
is in that of the pattern with its letters folded. -/
theorem like_ilike_iff (text pattern : Bytes) :
    (∃ matched, Settles (like text pattern) matched ∧
      (matched = true ↔ text ∈ language (pieces pattern))) ∧
    ∃ matched, Settles (ilike text pattern) matched ∧
      (matched = true ↔ text.map lower ∈ language ((pieces pattern).map (Piece.map lower))) := by
  refine ⟨?_, settles_likeMatch text pattern true⟩
  have hid : foldByte false = id := by
    funext b
    exact if_neg fun h => nomatch h.1
  have hmap : Piece.map (id : UInt8 → UInt8) = id := by
    funext p
    cases p <;> rfl
  have h := settles_likeMatch text pattern false
  rw [hid, map_id, hmap, map_id] at h
  exact h

/-- `aB` is like `A%b` if letters are folded only. -/
example : like [97, 66] [65, 37, 98] 9 = some false ∧ ilike [97, 66] [65, 37, 98] 9 = some true := by
  decide

end Leviathan.Prelude
