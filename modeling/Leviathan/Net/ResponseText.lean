import Leviathan.Net.RequestFraming

/-!
# What a rendered response says

`HttpResponse.render` puts the reason and the user's headers between the lines of the head as they
are.  The text is `Intact` if it says what the response says: the lines of its head are the status
line, those of the two headers that the server computes and one for each header of the user, and
`parse` finds the status, these headers and the body.

That is so exactly if no line end is in the reason, a name or a value, and each name is one for
`parse` too: without a colon, not blank, and none that the server keeps for itself once the blanks
round it are dropped (`render_intact_iff`).  So it is for a stream with its chunks (`stream_intact`).
-/

namespace Leviathan.Net

open List
open HttpRequest (blankLine)

/-! ## Lines -/

section Lines

variable {a b l s t name value : Str} {ls : List Str} {c : Char}

/-- A text without a line end. -/
def OneLine (s : Str) : Prop := indexOf crlf s = none

/-- Lines with their ends. -/
def ended (ls : List Str) : Str := (ls.map (· ++ crlf)).flatten

/-- The lines of a text. -/
def Lines (s : Str) (ls : List Str) : Prop := (∀ l ∈ ls, OneLine l) ∧ s = ended ls

theorem oneLine_cons : OneLine (c :: s) ↔ ¬ crlf <+: c :: s ∧ OneLine s := by
  rw [OneLine, indexOf, ← isPrefixOf_iff_prefix]
  split
  · next h => simp [h]
  · next h => simp [h, OneLine]

/-- Another byte than the two of a line end keeps what stands on both sides of it apart. -/
theorem oneLine_append (hc : c ∉ crlf) : OneLine (a ++ c :: b) ↔ OneLine a ∧ OneLine b := by
  have hne : ¬ '\r' = c ∧ ¬ '\n' = c := by simpa [crlf, eq_comm] using hc
  induction a with
  | nil => simp [crlf, hne, OneLine, indexOf]
  | cons d a ih =>
    have hpre : crlf <+: d :: (a ++ c :: b) ↔ crlf <+: d :: a := by cases a <;> simp [crlf, hne]
    rw [cons_append, oneLine_cons, hpre, oneLine_cons, and_assoc]
    exact and_congr_right fun _ => ih

theorem oneLine_of_forall (h : ∀ c ∈ s, c.isDigit = true) : OneLine s := by
  induction s with
  | nil => rfl
  | cons c s ih =>
    refine oneLine_cons.mpr ⟨fun hpre => ?_, ih fun d hd => h d (mem_cons_of_mem c hd)⟩
    have hc : '\r' = c := ((List.cons_prefix_cons).mp hpre).1
    exact absurd (h c mem_cons_self) (hc ▸ by decide)

/-- A line end does not begin within a line. -/
theorem not_crlf_prefix (h : OneLine l) (hne : l ≠ []) (t : Str) : ¬ crlf <+: l ++ (crlf ++ t) := by
  cases l with
  | nil => exact absurd rfl hne
  | cons c l =>
    intro hpre
    refine (oneLine_cons.mp h).1 ?_
    cases l <;> simp [crlf] at hpre ⊢
    exact hpre

/-- A line ends at its end. -/
theorem indexOf_line (h : OneLine l) (t : Str) : indexOf crlf (l ++ (crlf ++ t)) = some l.length := by
  induction l with
  | nil => rfl
  | cons c l ih =>
    have hpre := not_crlf_prefix h (cons_ne_nil c l) t
    rw [← isPrefixOf_iff_prefix, cons_append] at hpre
    rw [cons_append, indexOf, ih (oneLine_cons.mp h).2, if_neg hpre]
    rfl

/-- The blank line begins with the end of a line. -/
theorem indexOf_blankLine_line (h : OneLine l) (t : Str) :
    indexOf blankLine (l ++ (crlf ++ t)) =
      if crlf <+: t then some l.length else (indexOf blankLine t).map (· + (l.length + 2)) := by
  induction l with
  | nil =>
    have hhere : blankLine.isPrefixOf ('\r' :: '\n' :: t) = crlf.isPrefixOf t := rfl
    have hnext : blankLine.isPrefixOf ('\n' :: t) = false := rfl
    show indexOf blankLine ('\r' :: '\n' :: t) = _
    rw [indexOf, hhere, indexOf, hnext]
    simp only [← isPrefixOf_iff_prefix]
    split
    · rfl
    · rw [if_neg Bool.false_ne_true, Option.map_map]
      rfl
  | cons c l ih =>
    have hpre : ¬ blankLine.isPrefixOf (c :: (l ++ (crlf ++ t))) := fun hpre =>
      not_crlf_prefix h (cons_ne_nil c l) t
        ((prefix_append crlf crlf).trans (List.isPrefixOf_iff_prefix.mp hpre))
    rw [cons_append, indexOf, if_neg hpre, ih (oneLine_cons.mp h).2]
    split
    · rfl
    · rw [Option.map_map]
      rfl

theorem ended_cons (l : Str) (ls : List Str) : ended (l :: ls) = l ++ (crlf ++ ended ls) := by
  simp [ended]

theorem ended_eq (hne : ls ≠ []) : ∃ t, ended ls = t ++ crlf := by
  obtain hnil | ⟨init, last, rfl⟩ := eq_nil_or_concat ls
  · exact absurd hnil hne
  · exact ⟨ended init ++ last, by simp [ended]⟩

/-- The head ends behind its lines. -/
theorem indexOf_blankLine (hall : ∀ l ∈ ls, OneLine l ∧ l ≠ []) (hne : ls ≠ []) (body : Str) :
    indexOf blankLine (ended ls ++ (crlf ++ body)) = some ((ended ls).length - 2) := by
  induction ls with
  | nil => exact absurd rfl hne
  | cons l ls ih =>
    have hall' := fun x hx => hall x (mem_cons_of_mem l hx)
    rw [ended_cons, append_assoc, append_assoc,
      indexOf_blankLine_line (hall l mem_cons_self).1]
    cases ls with
    | nil => simp [ended, crlf]
    | cons l' ls =>
      obtain ⟨hl', hne'⟩ := hall' l' mem_cons_self
      rw [if_neg, ih hall' (cons_ne_nil l' ls), ended_cons]
      · simp [crlf]
        omega
      · rw [ended_cons, append_assoc, append_assoc]
        exact not_crlf_prefix hl' hne' _

/-- The headers of a block are those of its lines. -/
theorem headerLines_ended (hall : ∀ l ∈ ls, OneLine l ∧ l ≠ []) (hne : ls ≠ []) {fuel : Nat}
    (hfuel : s.length ≤ fuel) (hs : s ++ crlf = ended ls) :
    headerLines fuel s = ls.filterMap headerOf := by
  have hnil : ∀ fuel, headerLines fuel [] = [] := fun fuel => by cases fuel <;> rfl
  rw [List.filterMap_eq_flatMap_toList]
  induction ls generalizing s fuel with
  | nil => exact absurd rfl hne
  | cons l ls ih =>
    obtain ⟨⟨hl, hl0⟩, hls⟩ := List.forall_mem_cons.mp hall
    have hpos := length_pos_of_ne_nil hl0
    rw [ended_cons] at hs
    have hlength := congrArg List.length hs
    simp [crlf] at hlength
    obtain ⟨fuel, rfl⟩ : ∃ k, fuel = k + 1 := Nat.exists_eq_succ_of_ne_zero (by omega)
    rw [headerLines, if_neg (by omega), flatMap_cons]
    by_cases hlast : ls = []
    · subst hlast
      obtain rfl : s = l := by simpa [ended] using hs
      simp only [show indexOf crlf s = none from hl, hnil]
      rfl
    · obtain ⟨t, ht⟩ := ended_eq hlast
      obtain rfl : s = l ++ (crlf ++ t) := by simpa [ht, ← append_assoc] using hs
      simp only [indexOf_line hl, take_left]
      rw [← append_assoc, drop_left' (by simp [crlf]), ih hls hlast ?_ ht.symm]
      simp [crlf] at hfuel
      omega

end Lines

/-! ## Header lines -/

def lineOf (h : Header) : Str := h.name ++ ": ".toList ++ h.value

/-- A header without the blanks round its name and value. -/
def trimmed (h : Header) : Header := ⟨trim h.name, trim h.value⟩

/-- A name that the server keeps for itself. -/
def Computed (name : Str) : Prop :=
  toLower name = "content-length".toList ∨ toLower name = "connection".toList ∨
    toLower name = "transfer-encoding".toList

instance (name : Str) : Decidable (Computed name) := by unfold Computed; infer_instance

/-- A name that `parse` reads as it is. -/
def Readable (h : Header) : Prop := ':' ∉ h.name ∧ trim h.name ≠ []

theorem mem_trim {s : Str} {c : Char} (hc : isBlank c = false) : c ∈ trim s ↔ c ∈ s := by
  have hdrop : ∀ s : Str, c ∈ s.dropWhile isBlank ↔ c ∈ s := by
    intro s
    refine ⟨fun h => (List.dropWhile_sublist isBlank).mem h, fun h => ?_⟩
    rw [← takeWhile_append_dropWhile (p := isBlank) (l := s)] at h
    refine (List.mem_append.mp h).resolve_left fun ht => ?_
    exact absurd (mem_takeWhile_imp ht) (by simp [hc])
  simp [trim, hdrop]

theorem not_mem_take_indexOf {s : Str} {c : Char} {i : Nat} (h : indexOf [c] s = some i) :
    c ∉ s.take i := by
  induction s generalizing i with
  | nil => simp
  | cons d s ih =>
    rw [indexOf] at h
    split at h
    · obtain rfl := Option.some.inj h
      simp
    · next hpre =>
      obtain ⟨m, hm, rfl⟩ := Option.map_eq_some_iff.mp h
      simp_all [List.isPrefixOf]

theorem headerOf_lineOf {h : Header} (hname : Readable h) : headerOf (lineOf h) = some (trimmed h) := by
  have hline : lineOf h = h.name ++ ':' :: ' ' :: h.value := by simp [lineOf]
  have hvalue : trim (' ' :: h.value) = trim h.value := rfl
  rw [headerOf, hline, indexOf_singleton hname.1]
  simp [List.length_pos_iff.mpr hname.2, trimmed, hvalue]

theorem readable_of_headerOf {line : Str} {h : Header} (hh : headerOf line = some h) :
    ':' ∉ h.name ∧ h.name ≠ [] := by
  rw [headerOf] at hh
  split at hh
  · cases hh
  · next colon hcolon =>
    dsimp only at hh
    split at hh
    · next hpos =>
      obtain rfl := Option.some.inj hh
      exact ⟨mt (mem_trim rfl).mp (not_mem_take_indexOf hcolon), ne_nil_of_length_pos hpos⟩
    · cases hh

theorem readable_of_computed {h : Header} (hc : Computed (trim h.name)) : Readable h := by
  have hcolon : ':' ∈ h.name → ':' ∈ toLower (trim h.name) := fun hm =>
    mem_map_of_mem (f := Char.toLower) ((mem_trim rfl).mpr hm)
  constructor
  · intro hm
    rcases hc with hc | hc | hc <;> exact absurd (hc ▸ hcolon hm) (by decide)
  · intro hnil
    rw [hnil] at hc
    exact absurd hc (by decide)

/-- A header of the server is read as it is. -/
structure Own (h : Header) : Prop where
  line : OneLine h.name ∧ OneLine h.value
  read : headerOf (lineOf h) = some h

theorem own_of_name {h : Header} (hname : h.name ∈ ["Content-Length".toList, "Connection".toList,
    "Transfer-Encoding".toList]) (hvalue : OneLine h.value ∧ trim h.value = h.value) : Own h := by
  have hnames : ∀ name ∈ ["Content-Length".toList, "Connection".toList,
      "Transfer-Encoding".toList], indexOf crlf name = none ∧ ':' ∉ name ∧ trim name = name ∧
        name ≠ [] := by
    decide
  obtain ⟨hline, hcolon, htrim, hne⟩ := hnames h.name hname
  refine ⟨⟨hline, hvalue.1⟩, ?_⟩
  rw [headerOf_lineOf ⟨hcolon, htrim.symm ▸ hne⟩, trimmed, htrim, hvalue.2]

namespace HttpResponse

/-- The user's headers that are rendered. -/
def kept (r : HttpResponse) : List Header := r.headers.filter fun h => ¬ Computed h.name

/-- The user's other headers. -/
def others (r : HttpResponse) : List Header := r.kept.filter fun h => ¬ Computed (trim h.name)

def connectionHeader (keep : Bool) : Header :=
  ⟨"Connection".toList, if keep then "keep-alive".toList else "close".toList⟩

/-- The headers that the server computes. -/
def computed (r : HttpResponse) : List Header :=
  [⟨"Content-Length".toList, (toString r.body.length).toList⟩, connectionHeader r.keepAlive]

/-- The headers that the server computes for a stream. -/
def streamed (keep : Bool) : List Header :=
  [⟨"Transfer-Encoding".toList, "chunked".toList⟩, connectionHeader keep]

def headLines (r : HttpResponse) (own : List Header) : List Str :=
  r.statusLine :: (own ++ r.kept).map lineOf

def headBlock (r : HttpResponse) (own : List Header) : Str := ended ((own ++ r.kept).map lineOf)

def written (r : HttpResponse) (own : List Header) (body : Str) : Str :=
  r.statusLine ++ (crlf ++ (r.headBlock own ++ (crlf ++ body)))

/-- The text says what the response says: `body` is what follows the head, and `payload` what it
stands for. -/
structure Intact (r : HttpResponse) (own : List Header) (raw body payload : Str) : Prop where
  head : ∃ he, indexOf blankLine raw = some he ∧ Lines (raw.take (he + 2)) (r.headLines own) ∧
    raw.drop (he + 4) = body
  status : ∀ q : HttpResponse, (q.parse raw).status = r.status
  body : ∀ q : HttpResponse, (q.parse raw).body = payload
  headers : ∀ q : HttpResponse, (q.parse raw).headers = own ++ r.others.map trimmed

/-- What the caller has to see to. -/
structure Plain (r : HttpResponse) : Prop where
  reason : OneLine r.reason
  header : ∀ h ∈ r.kept, OneLine h.name ∧ OneLine h.value ∧ Readable h ∧ ¬ Computed (trim h.name)

variable {r : HttpResponse} {own : List Header} {body : Str}

theorem extra_eq (r : HttpResponse) : r.extra = ended (r.kept.map lineOf) := by
  rw [extra, ended, map_map, kept]
  congr 2
  refine filter_congr fun h _ => decide_eq_decide.mpr ?_
  rw [Computed, not_or, not_or]

theorem render_eq (hbuffered : r.isStreaming = false) :
    r.render = some (r.written r.computed r.body) := by
  have htext : ∀ start length connection kept : Str,
      start ++ "\r\nContent-Length: ".toList ++ length ++
        ("\r\nConnection: ".toList ++ connection ++ crlf) ++ kept ++ crlf ++ r.body =
      start ++ (crlf ++ (lineOf ⟨"Content-Length".toList, length⟩ ++
        (crlf ++ (lineOf ⟨"Connection".toList, connection⟩ ++ (crlf ++ kept))) ++
        (crlf ++ r.body))) := by simp [crlf, lineOf]
  rw [render, hbuffered, if_neg Bool.false_ne_true, extra_eq, written, headBlock, computed,
    cons_append, cons_append, map_cons, map_cons, ended_cons, ended_cons]
  exact congrArg some (htext _ _ _ _)

theorem renderStreamHead_eq (keep : Bool) (body : Str) :
    r.renderStreamHead keep ++ body = r.written (streamed keep) body := by
  have htext : ∀ start connection kept : Str,
      start ++ "\r\nTransfer-Encoding: chunked".toList ++
        ("\r\nConnection: ".toList ++ connection ++ crlf) ++ kept ++ crlf ++ body =
      start ++ (crlf ++ (lineOf ⟨"Transfer-Encoding".toList, "chunked".toList⟩ ++
        (crlf ++ (lineOf ⟨"Connection".toList, connection⟩ ++ (crlf ++ kept))) ++
        (crlf ++ body))) := by simp [crlf, lineOf]
  rw [renderStreamHead, extra_eq, written, headBlock, streamed, cons_append, cons_append, map_cons,
    map_cons, ended_cons, ended_cons]
  exact htext _ _ _

theorem headLines_ne_nil : ∀ l ∈ r.headLines own, l ≠ [] := by
  refine List.forall_mem_cons.mpr ⟨cons_ne_nil _ _, fun l hl => ?_⟩
  obtain ⟨h, -, rfl⟩ := List.mem_map.mp hl
  simp [lineOf]

theorem written_eq : r.written own body = ended (r.headLines own) ++ (crlf ++ body) := by
  simp only [headLines, ended_cons, written, headBlock, append_assoc]

/-- Where the first line and the head end if the lines are lines. -/
theorem ends_written (hlines : ∀ l ∈ r.headLines own, OneLine l) (body : Str) :
    indexOf crlf (r.written own body) = some r.statusLine.length ∧
      indexOf blankLine (r.written own body) =
        some (r.statusLine.length + (r.headBlock own).length) := by
  refine ⟨indexOf_line (hlines _ mem_cons_self) _, ?_⟩
  rw [written_eq, indexOf_blankLine (fun l hl => ⟨hlines l hl, headLines_ne_nil l hl⟩)
    (cons_ne_nil _ _), headLines, ended_cons, headBlock]
  simp [crlf]
  omega

theorem cutAt_written (hlines : ∀ l ∈ r.headLines own, OneLine l) :
    HttpRequest.cutAt crlf (r.written own body) =
      (r.statusLine, r.headBlock own ++ (crlf ++ body)) := by
  rw [HttpRequest.cutAt, (ends_written hlines body).1]
  simp [written, ← drop_drop]

theorem drop_written : (r.written own body).drop
    (r.statusLine.length + (r.headBlock own).length + 4) = body := by
  rw [written, ← append_assoc, ← append_assoc, ← append_assoc]
  exact drop_left' (by simp [crlf]; omega)

/-- What `parse` finds. -/
theorem parse_written (hne : own ≠ []) (hlines : ∀ l ∈ r.headLines own, OneLine l)
    (q : HttpResponse) :
    let headers := ((own ++ r.kept).map lineOf).filterMap headerOf
    (q.parse (r.written own body)).headers = headers ∧ (q.parse (r.written own body)).body =
      if toLower (firstOr headers "Transfer-Encoding".toList []) = "chunked".toList then
        (ChunkedDecoder.feed {} body).2 else body := by
  obtain ⟨hfirst, hhead⟩ := ends_written hlines body
  have hne' : (own ++ r.kept).map lineOf ≠ [] := by simp [hne]
  obtain ⟨block, hblock⟩ : ∃ block, r.headBlock own = block ++ crlf := ended_eq hne'
  have hheaders : parseHeaderLines block = ((own ++ r.kept).map lineOf).filterMap headerOf :=
    headerLines_ended (fun l hl => ⟨hlines l (mem_cons_of_mem _ hl),
      headLines_ne_nil l (mem_cons_of_mem _ hl)⟩) hne' le_rfl hblock.symm
  have htake : ¬ r.statusLine.length + (r.headBlock own).length < r.statusLine.length + 2 ∧
      (r.headBlock own ++ (crlf ++ body)).take
        (r.statusLine.length + (r.headBlock own).length - (r.statusLine.length + 2)) = block := by
    simp [hblock, crlf, ← Nat.add_assoc]
  simp only [parse, cutAt_written hlines, hfirst, show indexOf (crlf ++ crlf) _ = _ from hhead,
    if_neg htake.1, htake.2, hheaders, drop_written]
  exact ⟨trivial, trivial⟩

theorem statusLine_eq (hstatus : 100 ≤ r.status ∧ r.status ≤ 999) : ∃ n : Nat, r.status = n ∧
    r.statusLine = "HTTP/1.1".toList ++ ' ' :: (Nat.toDigits 10 n ++ ' ' :: r.reason) := by
  obtain ⟨n, hn⟩ := Int.eq_ofNat_of_zero_le (show 0 ≤ r.status by omega)
  have hdigits : (toString r.status).toList = Nat.toDigits 10 n := by
    rw [hn]
    exact Nat.toList_repr
  refine ⟨n, hn, ?_⟩
  exact (congrArg (fun d : Str => "HTTP/1.1 ".toList ++ d ++ [' '] ++ r.reason) hdigits).trans
    (by simp)

theorem status_written (hstatus : 100 ≤ r.status ∧ r.status ≤ 999)
    (hlines : ∀ l ∈ r.headLines own, OneLine l) (q : HttpResponse) :
    (q.parse (r.written own body)).status = r.status := by
  obtain ⟨hfirst, hhead⟩ := ends_written hlines body
  obtain ⟨n, hn, hline⟩ := statusLine_eq hstatus
  have hsp1 : indexOf [' '] r.statusLine = some 8 := by
    rw [hline, indexOf_singleton (by decide)]
    rfl
  have hrest : r.statusLine.drop (8 + 1) = Nat.toDigits 10 n ++ ' ' :: r.reason := by
    rw [hline]
    rfl
  have hspace : ' ' ∉ Nat.toDigits 10 n := fun h => absurd (Text.isDigit_of_mem_toDigits h) (by decide)
  have hsp2 : HttpRequest.cutAt [' '] (Nat.toDigits 10 n ++ ' ' :: r.reason) =
      (Nat.toDigits 10 n, r.reason) := by
    simp [HttpRequest.cutAt, indexOf_singleton hspace]
  simp only [parse, cutAt_written hlines, hfirst, show indexOf (crlf ++ crlf) _ = _ from hhead,
    hsp1, hrest, hsp2]
  -- the digits are read back
  obtain ⟨d, ds, hds, hd⟩ := Text.toDigits_cons n
  have hminus : ¬ (Nat.toDigits 10 n).head? = some '-' := by
    rw [hds]
    rintro ⟨⟩
    exact absurd hd (by decide)
  have hvalue : Nat.ofDigitChars 10 (Nat.toDigits 10 n) 0 = n :=
    Nat.ofDigitChars_toDigits (by decide) (by decide)
  simp only [toInt, if_neg hminus, hvalue]
  rw [if_pos, hn]
  · rfl
  · exact ⟨Nat.toDigits_ne_nil, List.all_eq_true.mpr fun c hc => Text.isDigit_of_mem_toDigits hc,
      by omega, by omega⟩

theorem oneLine_statusLine (hstatus : 100 ≤ r.status ∧ r.status ≤ 999) :
    OneLine r.statusLine ↔ OneLine r.reason := by
  obtain ⟨n, -, hline⟩ := statusLine_eq hstatus
  have hdigits : OneLine (Nat.toDigits 10 n) :=
    oneLine_of_forall fun c hc => Text.isDigit_of_mem_toDigits hc
  have hversion : OneLine "HTTP/1.1".toList := rfl
  rw [hline, oneLine_append (by decide), oneLine_append (by decide)]
  exact ⟨fun h => h.2.2, fun h => ⟨hversion, hdigits, h⟩⟩

theorem oneLine_lineOf {h : Header} : OneLine (lineOf h) ↔ OneLine h.name ∧ OneLine h.value := by
  have hline : lineOf h = h.name ++ ':' :: ([] ++ ' ' :: h.value) := by simp [lineOf]
  rw [hline, oneLine_append (by decide), oneLine_append (by decide)]
  exact and_congr_right fun _ => and_iff_right rfl

theorem filterMap_lines (hown : ∀ h ∈ own, Own h) :
    ((own ++ r.kept).map lineOf).filterMap headerOf =
      own ++ (r.kept.map lineOf).filterMap headerOf := by
  rw [map_append, filterMap_append, filterMap_map]
  exact congrArg (· ++ _)
    ((List.filterMap_congr fun h hh => (hown h hh).read).trans List.filterMap_some)

/-- A plain head around a body is read as it is. -/
theorem intact_written (hstatus : 100 ≤ r.status ∧ r.status ≤ 999) (hplain : r.Plain)
    (hne : own ≠ []) (hown : ∀ h ∈ own, Own h) {payload : Str}
    (hbody : (if toLower (firstOr (own ++ r.others.map trimmed) "Transfer-Encoding".toList []) =
      "chunked".toList then (ChunkedDecoder.feed {} body).2 else body) = payload) :
    r.Intact own (r.written own body) body payload := by
  have hothers : r.others = r.kept := List.filter_eq_self.mpr fun h hh => by
    simpa using (hplain.header h hh).2.2.2
  have hfound : ((own ++ r.kept).map lineOf).filterMap headerOf = own ++ r.others.map trimmed := by
    rw [filterMap_lines hown, hothers, filterMap_map, ← List.filterMap_eq_map]
    exact congrArg (own ++ ·)
      (List.filterMap_congr fun h hh => headerOf_lineOf (hplain.header h hh).2.2.1)
  have hlines : ∀ l ∈ r.headLines own, OneLine l := by
    refine List.forall_mem_cons.mpr ⟨(oneLine_statusLine hstatus).mpr hplain.reason, fun l hl => ?_⟩
    obtain ⟨h, hh, rfl⟩ := List.mem_map.mp hl
    rcases List.mem_append.mp hh with hh | hh
    · exact oneLine_lineOf.mpr (hown h hh).line
    · have hheader := hplain.header h hh
      exact oneLine_lineOf.mpr ⟨hheader.1, hheader.2.1⟩
  refine ⟨⟨_, (ends_written hlines body).2, ⟨hlines, ?_⟩, drop_written⟩,
    status_written hstatus hlines, fun q => ?_, fun q => (parse_written hne hlines q).1.trans hfound⟩
  · rw [written_eq]
    refine List.take_left' ?_
    rw [headLines, ended_cons, headBlock]
    simp [crlf]
    omega
  · rw [(parse_written hne hlines q).2, hfound]
    exact hbody

theorem own_connectionHeader (keep : Bool) : Own (connectionHeader keep) :=
  own_of_name (mem_cons_of_mem _ mem_cons_self) (by cases keep <;> exact ⟨rfl, rfl⟩)

theorem own_computed : ∀ h ∈ r.computed, Own h := by
  refine List.forall_mem_cons.mpr ⟨own_of_name mem_cons_self ?_,
    List.forall_mem_singleton.mpr (own_connectionHeader _)⟩
  have hdigits : ∀ c ∈ (toString r.body.length).toList, c.isDigit = true := fun c hc =>
    Text.isDigit_of_mem_toDigits (Nat.toList_repr ▸ hc)
  refine ⟨oneLine_of_forall hdigits, trim_of_forall fun c hc => ?_⟩
  have hspace := (Text.not_isSpace_of_isDigit (hdigits c hc)).1
  simp_all [isBlank, Text.isSpace]

/-- **A response is read back as it is and has no other lines**, exactly if it is buffered and its
reason and headers are plain. -/
theorem render_intact_iff (r : HttpResponse) (hstatus : 100 ≤ r.status ∧ r.status ≤ 999) :
    (∃ raw, r.render = some raw ∧ r.Intact r.computed raw r.body r.body) ↔
      r.isStreaming = false ∧ r.Plain := by
  constructor
  · rintro ⟨raw, hraw, hintact⟩
    have hbuffered : r.isStreaming = false := by
      by_contra h
      rw [render, if_pos (by simpa using h)] at hraw
      cases hraw
    rw [render_eq hbuffered] at hraw
    obtain rfl := Option.some.inj hraw
    obtain ⟨he, -, ⟨hlines, -⟩, -⟩ := hintact.head
    have hfound : (r.kept.map lineOf).filterMap headerOf = r.others.map trimmed :=
      append_cancel_left (filterMap_lines own_computed ▸
        (parse_written (cons_ne_nil _ _) hlines r).1.symm.trans (hintact.headers r))
    refine ⟨hbuffered, (oneLine_statusLine hstatus).mp (hlines _ mem_cons_self), fun h hh => ?_⟩
    obtain ⟨hname, hvalue⟩ := oneLine_lineOf.mp (hlines _ (mem_cons_of_mem _
      (mem_map_of_mem (mem_append_right r.computed hh))))
    by_cases hc : Computed (trim h.name)
    · -- `parse` finds it, and it is none of the others
      have hmem : trimmed h ∈ r.others.map trimmed := hfound ▸ List.mem_filterMap.mpr
        ⟨_, mem_map_of_mem hh, headerOf_lineOf (readable_of_computed hc)⟩
      obtain ⟨h', hh', heq⟩ := List.mem_map.mp hmem
      have hnot : ¬ Computed (trim h'.name) := by simpa using (List.mem_filter.mp hh').2
      have hsame : trim h'.name = trim h.name := congrArg Header.name heq
      exact absurd (hsame ▸ hc) hnot
    · -- what `parse` finds has a name without a colon
      have hmem : trimmed h ∈ (r.kept.map lineOf).filterMap headerOf := hfound ▸
        mem_map_of_mem (List.mem_filter.mpr ⟨hh, by simpa using hc⟩)
      obtain ⟨l, -, hl⟩ := List.mem_filterMap.mp hmem
      obtain ⟨hcolon, hne⟩ := readable_of_headerOf hl
      exact ⟨hname, hvalue, ⟨mt (mem_trim rfl).mpr hcolon, hne⟩, hc⟩
  · rintro ⟨hbuffered, hplain⟩
    refine ⟨_, render_eq hbuffered, intact_written hstatus hplain (cons_ne_nil _ _) own_computed ?_⟩
    -- no chunked body
    rw [firstOr, List.find?_eq_none.mpr]
    · exact if_neg (by decide)
    · intro h hh
      have hlower : toLower "Transfer-Encoding".toList = "transfer-encoding".toList := by decide
      rw [decide_eq_true_eq, hlower]
      rcases List.mem_append.mp hh with hh | hh
      · have hname := mem_map_of_mem (f := Header.name) hh
        revert hname
        generalize h.name = name
        exact (by decide : ∀ name ∈ ["Content-Length".toList, "Connection".toList],
          ¬ toLower name = "transfer-encoding".toList) name
      · obtain ⟨user, huser, rfl⟩ := List.mem_map.mp hh
        have hnot : ¬ Computed (trim user.name) := by simpa using (List.mem_filter.mp huser).2
        exact fun hte => hnot (Or.inr (Or.inr hte))

theorem render_intact_iff_ok :
    (∃ raw, (new 200 "ok").render = some raw ∧
      (new 200 "ok").Intact (new 200 "ok").computed raw "ok".toList "ok".toList) ↔
      (new 200 "ok").isStreaming = false ∧ (new 200 "ok").Plain :=
  render_intact_iff _ (by decide)

/-- A value with a line end. -/
theorem not_render_intact : ¬ ∀ r : HttpResponse, 100 ≤ r.status ∧ r.status ≤ 999 →
    ∃ raw, r.render = some raw ∧ r.Intact r.computed raw r.body r.body := by
  intro h
  obtain ⟨raw, hraw, hintact⟩ :=
    h { status := 200, headers := [⟨['a'], "b\r\nSet-Cookie: c".toList⟩] } (by decide)
  cases hraw
  exact absurd (hintact.headers (new 200 "")) (by decide +kernel)

/-- **A streamed response is read back**, with all that was put into its chunks. -/
theorem stream_intact {ps : List Str} (r : HttpResponse) (keep : Bool)
    (hstatus : 100 ≤ r.status ∧ r.status ≤ 999) (hplain : r.Plain) (hps : Sendable ps) :
    let body := ps.flatMap chunkEncode ++ chunkEnd
    r.Intact (streamed keep) (r.renderStreamHead keep ++ body) body ps.flatten := by
  intro body
  have hown : ∀ h ∈ streamed keep, Own h := List.forall_mem_cons.mpr
    ⟨own_of_name (mem_cons_of_mem _ (mem_cons_of_mem _ mem_cons_self)) ⟨rfl, rfl⟩,
      List.forall_mem_singleton.mpr (own_connectionHeader keep)⟩
  rw [renderStreamHead_eq]
  refine intact_written hstatus hplain (cons_ne_nil _ _) hown ?_
  have hrested := rested_new hps
  rw [← append_nil (markedWire ps)] at hrested
  obtain ⟨w', -, hout⟩ := hrested.feed
  rw [bytesOf_markedWire, payloadOf_markedWire] at hout
  have hlower : toLower "chunked".toList = "chunked".toList := by decide
  exact (if_pos hlower).trans hout

theorem stream_intact_letter :
    let body := [['a']].flatMap chunkEncode ++ chunkEnd
    (new 200 "").Intact (streamed true) ((new 200 "").renderStreamHead true ++ body) body ['a'] :=
  stream_intact (new 200 "") true (by decide) ⟨rfl, nofun⟩
    (List.forall_mem_singleton.mpr (by decide))

end HttpResponse

end Leviathan.Net
