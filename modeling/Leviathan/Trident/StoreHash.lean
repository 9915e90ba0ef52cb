import Leviathan.Trident.SemVer

/-!
# What the content hash is taken of

`canonicalContentHash` sorts the files of a store entry by path and feeds, for each file, the
path, a NUL and the bytes of the file to one SHA-256 stream.  A file's bytes have no end mark, so
the stream says where the first path ends and nothing after that: the bytes of the first file can
swallow all the other files, or give up a tail of their own that reads as a file.
`canonicalContentHash_unambiguous_iff` says for which file sets that cannot happen.

The disk is a function from a path to the bytes of the file there.
-/

namespace Leviathan.Trident

open List

/-- `struct StoreFile`. -/
structure StoreFile where
  relPath : Str
  absPath : Str
deriving DecidableEq, Repr

/-- The NUL that `canonicalContentHash` feeds after a path. -/
def sep : Char := '\x00'

section Hash

variable (disk : Str → Option Str)

/-- `readWholeFile`. -/
def readWholeFile (path : Str) : Except Str Str :=
  match disk path with
  | none => .error ("cannot read '".toList ++ path ++ "'".toList)
  | some data => .ok data

/-- The loop of `canonicalContentHash`; `h` is what the hash has been fed so far. -/
def feedFiles (h : Str) : List StoreFile → Except Str Str
  | [] => .ok h
  | f :: rest => do
    let data ← readWholeFile disk f.absPath
    feedFiles (h ++ f.relPath ++ [sep] ++ data) rest

/-- `std::sort` by the relative path. -/
def sortFiles (files : List StoreFile) : List StoreFile :=
  files.mergeSort fun a b => a.relPath ≤ b.relPath

/-- What `canonicalContentHash` feeds to SHA-256. -/
def contentPreimage (files : List StoreFile) : Except Str Str := feedFiles disk [] (sortFiles files)

/-- `canonicalContentHash`. -/
def canonicalContentHash (sha256 : Str → Str) (files : List StoreFile) : Except Str Str := do
  let fed ← contentPreimage disk files
  return sha256 fed

/-- A file of the set, with its bytes. -/
def HoldsFile (files : List StoreFile) (path data : Str) : Prop :=
  ∃ f ∈ files, f.relPath = path ∧ disk f.absPath = some data

end Hash

/-- A relative path. -/
def IsRelative (path : Str) : Prop := path ≠ [] ∧ sep ∉ path ∧ path.head? ≠ some '/'

/-- Distinct relative paths. -/
structure IsFileSet (files : List StoreFile) : Prop where
  relative : ∀ f ∈ files, IsRelative f.relPath
  nodup : (files.map (·.relPath)).Nodup

/-- The bytes of a file have no tail that reads as another file: no NUL with a relative path
after the file's own right before it. -/
def NoLaterFile (path data : Str) : Prop :=
  ∀ x q y, data = x ++ q ++ sep :: y → IsRelative q → ¬path < q

section Fed

variable {disk disk' : Str → Option Str} {files files' : List StoreFile}

/-- The files that are read, with their bytes. -/
def Reads (disk : Str → Option Str) (files : List StoreFile) (entries : List (Str × Str)) : Prop :=
  List.Forall₂ (fun f e => f.relPath = e.1 ∧ disk f.absPath = some e.2) files entries

/-- What one file feeds. -/
def piece (e : Str × Str) : Str := e.1 ++ sep :: e.2

theorem feedFiles_ok {h bytes : Str} (hok : feedFiles disk h files = .ok bytes) :
    ∃ entries, Reads disk files entries ∧ bytes = h ++ (entries.map piece).flatten := by
  induction files generalizing h with
  | nil =>
    cases hok
    exact ⟨[], .nil, by simp⟩
  | cons f rest ih =>
    rw [feedFiles] at hok
    cases hd : disk f.absPath with
    | none =>
      simp only [readWholeFile, hd] at hok
      cases hok
    | some data =>
      simp only [readWholeFile, hd] at hok
      obtain ⟨entries, hentries, hbytes⟩ := ih hok
      refine ⟨(f.relPath, data) :: entries, .cons ⟨rfl, hd⟩ hentries, ?_⟩
      rw [hbytes]
      simp [piece]

theorem Reads.feedFiles {entries : List (Str × Str)} (h : Reads disk files entries) (fed : Str) :
    feedFiles disk fed files = .ok (fed ++ (entries.map piece).flatten) := by
  induction h generalizing fed with
  | nil => simp [Trident.feedFiles]
  | cons hhead _ ih =>
    obtain ⟨hpath, hdisk⟩ := hhead
    rw [Trident.feedFiles]
    simp only [readWholeFile, hdisk]
    show Trident.feedFiles disk _ _ = _
    rw [ih, hpath]
    simp [piece]

theorem Reads.holds_iff {entries : List (Str × Str)} (h : Reads disk files entries)
    (path data : Str) : HoldsFile disk files path data ↔ (path, data) ∈ entries := by
  induction h with
  | nil => simp [HoldsFile]
  | cons hhead _ ih =>
    obtain ⟨hpath, hdisk⟩ := hhead
    rw [mem_cons, ← ih]
    constructor
    · intro h
      obtain ⟨f, hf, hfp, hfd⟩ := h
      obtain heq | htail := List.mem_cons.mp hf
      · rw [heq, hpath] at hfp
        rw [heq, hdisk] at hfd
        exact Or.inl (Prod.ext hfp.symm (Option.some.inj hfd).symm)
      · exact Or.inr ⟨f, htail, hfp, hfd⟩
    · intro h
      obtain heq | htail := h
      · subst heq
        exact ⟨_, mem_cons_self, hpath, hdisk⟩
      · obtain ⟨f, hf, hfile⟩ := htail
        exact ⟨f, mem_cons_of_mem _ hf, hfile⟩

theorem sortFiles_perm (files : List StoreFile) : (sortFiles files).Perm files :=
  mergeSort_perm files _

theorem holdsFile_sortFiles (path data : Str) :
    HoldsFile disk (sortFiles files) path data ↔ HoldsFile disk files path data := by
  simp only [HoldsFile, (sortFiles_perm files).mem_iff]

/-- The sorted paths rise. -/
theorem IsFileSet.sorted (h : IsFileSet files) :
    (sortFiles files).Pairwise fun f g => f.relPath < g.relPath := by
  have hle : (sortFiles files).Pairwise fun f g => decide (f.relPath ≤ g.relPath) = true := by
    refine pairwise_mergeSort (fun a b c hab hbc => ?_) (fun a b => ?_) files
    · simp only [decide_eq_true_eq] at hab hbc ⊢
      exact le_trans hab hbc
    · simp only [Bool.or_eq_true, decide_eq_true_eq]
      exact le_total a.relPath b.relPath
  have hne : (sortFiles files).Pairwise fun f g => f.relPath ≠ g.relPath := by
    have hnodup : ((sortFiles files).map (·.relPath)).Nodup :=
      ((sortFiles_perm files).map _).nodup_iff.mpr h.nodup
    exact List.pairwise_map.mp hnodup
  exact (hle.and hne).imp fun hfg => lt_of_le_of_ne (of_decide_eq_true hfg.1) hfg.2

/-- The sorted entries of a file set. -/
theorem IsFileSet.entries (h : IsFileSet files) {entries : List (Str × Str)}
    (hreads : Reads disk (sortFiles files) entries) :
    (∀ e ∈ entries, IsRelative e.1) ∧ entries.Pairwise fun a b => a.1 < b.1 := by
  have hmap : entries.map Prod.fst = (sortFiles files).map (·.relPath) := by
    have hforall : List.Forall₂ (fun (f : StoreFile) (e : Str × Str) => f.relPath = e.1)
        (sortFiles files) entries := hreads.imp fun _ _ hfe => hfe.1
    rw [← forall₂_eq_eq_eq, forall₂_map_left_iff, forall₂_map_right_iff]
    exact hforall.flip.imp fun _ _ hfe => hfe.symm
  constructor
  · intro e he
    have hmem : e.1 ∈ (sortFiles files).map (·.relPath) := hmap ▸ mem_map_of_mem he
    obtain ⟨f, hf, hfe⟩ := List.mem_map.mp hmem
    exact hfe ▸ h.relative f ((sortFiles_perm files).mem_iff.mp hf)
  · have hsorted : ((sortFiles files).map (·.relPath)).Pairwise fun p q => p < q :=
      List.pairwise_map.mpr h.sorted
    rw [← hmap] at hsorted
    exact List.pairwise_map.mp hsorted

end Fed

section Unambiguous

variable {disk : Str → Option Str} {files : List StoreFile}

/-- The same files with the same bytes. -/
def SameFiles (disk disk' : Str → Option Str) (files files' : List StoreFile) : Prop :=
  ∀ path data, HoldsFile disk files path data ↔ HoldsFile disk' files' path data

/-- No other file set feeds the same bytes. -/
def Unambiguous (disk : Str → Option Str) (files : List StoreFile) : Prop :=
  ∀ disk' files', IsFileSet files' →
    contentPreimage disk' files' = contentPreimage disk files → SameFiles disk disk' files files'

/-- The first path ends at the first NUL. -/
theorem piece_inj {p q d d' : Str} (hp : sep ∉ p) (hq : sep ∉ q) (h : p ++ sep :: d = q ++ sep :: d') :
    p = q ∧ d = d' := by
  induction p generalizing q with
  | nil =>
    cases q with
    | nil => exact ⟨rfl, (List.cons.inj h).2⟩
    | cons c q => exact absurd ((List.cons.inj h).1 ▸ mem_cons_self) hq
  | cons b p ih =>
    cases q with
    | nil => exact absurd ((List.cons.inj h).1 ▸ mem_cons_self) hp
    | cons c q =>
      obtain ⟨hbc, htail⟩ := List.cons.inj h
      obtain ⟨hpq, hdd⟩ := ih (fun hm => hp (mem_cons_of_mem b hm))
        (fun hm => hq (mem_cons_of_mem c hm)) htail
      exact ⟨by rw [hbc, hpq], hdd⟩

/-- A file set of one file. -/
def oneFile (path : Str) : List StoreFile := [⟨path, path⟩]

theorem oneFile_isFileSet {path : Str} (h : IsRelative path) : IsFileSet (oneFile path) := by
  refine ⟨fun f hf => ?_, nodup_singleton _⟩
  cases List.mem_singleton.mp hf
  exact h

theorem oneFile_preimage (path data : Str) :
    contentPreimage (fun _ => some data) (oneFile path) = .ok (path ++ sep :: data) := by
  have hreads : Reads (fun _ => some data) (oneFile path) [(path, data)] := .cons ⟨rfl, rfl⟩ .nil
  rw [contentPreimage, oneFile, sortFiles, mergeSort_singleton]
  rw [show [(⟨path, path⟩ : StoreFile)] = oneFile path from rfl, hreads.feedFiles]
  simp [piece]

/-- **A second file can be swallowed by the first.** -/
theorem swallowed {p d q d' : Str} {rest : List (Str × Str)} (hset : IsFileSet files)
    (hreads : Reads disk (sortFiles files) ((p, d) :: (q, d') :: rest)) :
    ¬Unambiguous disk files := by
  intro h
  obtain ⟨hrel, hsorted⟩ := hset.entries hreads
  have hpre : contentPreimage disk files =
      .ok (p ++ sep :: (d ++ (((q, d') :: rest).map piece).flatten)) := by
    rw [contentPreimage, hreads.feedFiles]
    simp [piece]
  have hsame := h _ (oneFile p) (oneFile_isFileSet (hrel _ mem_cons_self))
    ((oneFile_preimage p _).trans hpre.symm)
  have hq : HoldsFile disk files q d' := by
    rw [← holdsFile_sortFiles, hreads.holds_iff]
    exact mem_cons_of_mem _ mem_cons_self
  obtain ⟨f, hf, hfq, _⟩ := (hsame q d').mp hq
  cases List.mem_singleton.mp hf
  have hpq : p < q := (List.pairwise_cons.mp hsorted).1 _ mem_cons_self
  exact ne_of_lt hpq hfq

/-- **A tail of the only file can read as another file.** -/
theorem given_up {p x q y : Str} (hp : IsRelative p) (hq : IsRelative q) (hpq : p < q)
    (hreads : Reads disk files [(p, x ++ q ++ sep :: y)]) : ¬Unambiguous disk files := by
  intro h
  have hsort : sortFiles files = files := by
    match files, hreads with
    | [f], _ => exact mergeSort_singleton f
  have hpre : contentPreimage disk files = .ok (p ++ sep :: (x ++ q ++ sep :: y)) := by
    rw [contentPreimage, hsort, hreads.feedFiles]
    simp [piece]
  have hne : q ≠ p := (ne_of_lt hpq).symm
  have htwo : IsFileSet [⟨p, p⟩, ⟨q, q⟩] := by
    refine ⟨fun f hf => ?_, ?_⟩
    · obtain hf | hf := List.mem_cons.mp hf
      · rw [hf]
        exact hp
      · cases List.mem_singleton.mp hf
        exact hq
    · simp [hne.symm]
  have hpre' : contentPreimage (fun path => some (if path = p then x else y))
      [⟨p, p⟩, ⟨q, q⟩] = .ok (p ++ sep :: (x ++ q ++ sep :: y)) := by
    have hsorted : sortFiles [⟨p, p⟩, ⟨q, q⟩] = [⟨p, p⟩, ⟨q, q⟩] :=
      mergeSort_of_pairwise (by simp [hpq.le])
    have hreads' : Reads (fun path => some (if path = p then x else y))
        [⟨p, p⟩, ⟨q, q⟩] [(p, x), (q, y)] :=
      .cons ⟨rfl, by simp⟩ (.cons ⟨rfl, by simp [hne]⟩ .nil)
    rw [contentPreimage, hsorted, hreads'.feedFiles]
    simp [piece]
  have hsame := h _ _ htwo (hpre'.trans hpre.symm)
  have hheld := (hsame q y).mpr ⟨⟨q, q⟩, by simp, rfl, by simp [hne]⟩
  rw [hreads.holds_iff] at hheld
  simp [hne] at hheld

/-- Every list of readable files is read. -/
theorem exists_reads (files : List StoreFile) (hread : ∀ f ∈ files, (disk f.absPath).isSome) :
    ∃ entries, Reads disk files entries := by
  induction files with
  | nil => exact ⟨[], .nil⟩
  | cons f rest ih =>
    obtain ⟨data, hdata⟩ := Option.isSome_iff_exists.mp (hread f mem_cons_self)
    obtain ⟨entries, hentries⟩ := ih fun g hg => hread g (mem_cons_of_mem f hg)
    exact ⟨(f.relPath, data) :: entries, .cons ⟨rfl, hdata⟩ hentries⟩

/-- A set is unambiguous when the entries can be told from what they feed. -/
theorem unambiguous_of_entries (entries : List (Str × Str))
    (hreads : Reads disk (sortFiles files) entries)
    (h : ∀ entries' : List (Str × Str), (∀ e ∈ entries', IsRelative e.1) →
      (entries'.Pairwise fun a b => a.1 < b.1) →
      (entries'.map piece).flatten = (entries.map piece).flatten → entries' = entries) :
    Unambiguous disk files := by
  intro disk' files' hset' hpre
  have hfed : contentPreimage disk' files' = .ok (entries.map piece).flatten := by
    rw [hpre, contentPreimage, hreads.feedFiles]
    rfl
  obtain ⟨entries', hreads', hbytes⟩ := feedFiles_ok hfed
  obtain ⟨hrel, hsorted⟩ := hset'.entries hreads'
  have heq := h entries' hrel hsorted hbytes.symm
  intro path data
  rw [← holdsFile_sortFiles, hreads.holds_iff, ← heq, ← hreads'.holds_iff, holdsFile_sortFiles]

theorem nil_unambiguous (disk : Str → Option Str) : Unambiguous disk [] := by
  refine unambiguous_of_entries [] ?_ fun entries' _ _ hbytes => ?_
  · rw [sortFiles, mergeSort_nil]
    exact .nil
  · cases entries' with
    | nil => rfl
    | cons e rest => simp [piece] at hbytes

/-- The only file of a set has no tail to give up. -/
theorem single_unambiguous {f : StoreFile} {data : Str} (hf : sep ∉ f.relPath)
    (hdata : disk f.absPath = some data) (h : NoLaterFile f.relPath data) :
    Unambiguous disk [f] := by
  refine unambiguous_of_entries [(f.relPath, data)] ?_
    fun entries' hrel hsorted hbytes => ?_
  · rw [sortFiles, mergeSort_singleton]
    exact .cons ⟨rfl, hdata⟩ .nil
  · match entries' with
    | [] => simp [piece] at hbytes
    | [(p, d)] =>
      have hpiece : p ++ sep :: d = f.relPath ++ sep :: data := by simpa [piece] using hbytes
      obtain ⟨hp, hd⟩ : p = f.relPath ∧ d = data :=
        piece_inj (hrel _ mem_cons_self).2.1 hf hpiece
      rw [hp, hd]
    | (p, d) :: (q, d') :: rest =>
      have hpiece : p ++ sep :: (d ++ q ++ sep :: (d' ++ (rest.map piece).flatten)) =
          f.relPath ++ sep :: data := by
        simpa [piece] using hbytes
      obtain ⟨hp, hd⟩ := piece_inj (hrel _ mem_cons_self).2.1 hf hpiece
      have hpq : p < q := (List.pairwise_cons.mp hsorted).1 _ mem_cons_self
      refine absurd (hp ▸ hpq) (h d q _ hd.symm (hrel (q, d') ?_))
      exact mem_cons_of_mem _ mem_cons_self

/-- **When the hashed bytes name their files.**  The bytes fed for a readable file set are fed
for no other file set if and only if the set has no file, or one file whose bytes have no tail
that reads as another file. -/
theorem canonicalContentHash_unambiguous_iff (disk : Str → Option Str) (files : List StoreFile)
    (hset : IsFileSet files) (hread : ∀ f ∈ files, (disk f.absPath).isSome) :
    Unambiguous disk files ↔
      files = [] ∨ ∃ f data, files = [f] ∧ disk f.absPath = some data ∧
        NoLaterFile f.relPath data := by
  constructor
  · intro h
    match files, hset, hread, h with
    | [], _, _, _ => exact Or.inl rfl
    | [f], hset, hread, h =>
      obtain ⟨data, hdata⟩ := Option.isSome_iff_exists.mp (hread f mem_cons_self)
      refine Or.inr ⟨f, data, rfl, hdata, fun x q y hsplit hq hpq => ?_⟩
      have hreads : Reads disk [f] [(f.relPath, x ++ q ++ sep :: y)] :=
        .cons ⟨rfl, hsplit ▸ hdata⟩ .nil
      exact given_up (hset.relative f mem_cons_self) hq hpq hreads h
    | f :: g :: rest, hset, hread, h =>
      obtain ⟨entries, hreads⟩ := exists_reads (sortFiles (f :: g :: rest))
        fun k hk => hread k ((sortFiles_perm _).mem_iff.mp hk)
      have hlen := hreads.length_eq
      rw [(sortFiles_perm (f :: g :: rest)).length_eq] at hlen
      match entries, hreads, hlen with
      | (p, d) :: (q, d') :: tail, hreads, _ => exact absurd h (swallowed hset hreads)
  · intro h
    obtain hnil | ⟨f, data, hone, hdata, hno⟩ := h
    · rw [hnil]
      exact nil_unambiguous disk
    · subst hone
      exact single_unambiguous (hset.relative f mem_cons_self).2.1 hdata hno

/-- One file without a NUL. -/
theorem canonicalContentHash_unambiguous_text :
    Unambiguous (fun _ => some "let x = 1;".toList) (oneFile "a.lev".toList) := by
  have hrel : IsRelative "a.lev".toList := ⟨by decide, by decide, by decide⟩
  have hset := oneFile_isFileSet hrel
  refine (canonicalContentHash_unambiguous_iff _ _ hset fun _ _ => rfl).mpr
    (Or.inr ⟨_, _, rfl, rfl, fun x q y hsplit _ => ?_⟩)
  have hmem : sep ∈ "let x = 1;".toList := by
    rw [hsplit]
    simp
  exact absurd hmem (by decide)

/-- Two different file sets with the same hashed bytes: a file can be injected next to a
truncated one. -/
theorem contentPreimage_collides :
    contentPreimage (fun path => if path = "a".toList then some "x".toList else some "y".toList)
      [⟨"a".toList, "a".toList⟩, ⟨"b".toList, "b".toList⟩] =
    contentPreimage (fun _ => some "xb\x00y".toList) [⟨"a".toList, "a".toList⟩] ∧
    ¬SameFiles (fun path => if path = "a".toList then some "x".toList else some "y".toList)
      (fun _ => some "xb\x00y".toList)
      [⟨"a".toList, "a".toList⟩, ⟨"b".toList, "b".toList⟩] [⟨"a".toList, "a".toList⟩] := by
  have hsorted : sortFiles [⟨"a".toList, "a".toList⟩, ⟨"b".toList, "b".toList⟩] =
      [⟨"a".toList, "a".toList⟩, ⟨"b".toList, "b".toList⟩] :=
    mergeSort_of_pairwise (by decide)
  refine ⟨?_, fun h => ?_⟩
  · rw [contentPreimage, contentPreimage, hsorted, sortFiles, mergeSort_singleton]
    decide
  · obtain ⟨f, hf, hfb, _⟩ := (h "b".toList "y".toList).mp
      ⟨⟨"b".toList, "b".toList⟩, by simp, rfl, by decide⟩
    cases List.mem_singleton.mp hf
    exact absurd hfb (by decide)

end Unambiguous

end Leviathan.Trident
