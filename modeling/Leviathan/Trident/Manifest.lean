import Leviathan.Trident.SemVer
import Leviathan.Trident.TomlReader

/-!
# The project manifest

`manifest.cpp`: `parseManifest` reads `trident.toml`, `renderManifest` is the text
`writeManifest` puts on disk when a command has edited the manifest.  The writer
leaves empty fields out and the reader starts from empty ones; strings are quoted,
so their contents do not matter.

The kind of a dependency is never written, it is inferred again when the manifest
is loaded (`ProjectManifest.readBack`).  `parseManifest_render` says what is read
back from any written manifest, `parseManifest_renderManifest` that a manifest that
was read survives, and that editing its dependencies touches nothing else.
-/

namespace Leviathan.Trident

/-- The state of `parseManifest`: the manifest with its finished dependencies, and
the open one (`curDep`). -/
structure ManifestState where
  out : ProjectManifest := {}
  cur : Option Dependency := none

namespace ManifestState

/-- The manifest read so far. -/
def manifest (st : ManifestState) : ProjectManifest :=
  { st.out with deps := st.out.deps ++ st.cur.toList }

/-- A `[[dep]]` header. -/
def openDep (st : ManifestState) : ManifestState :=
  { out := st.manifest, cur := some { path := [] } }

end ManifestState

/-- `parseBool`. -/
def TomlReader.parseBool (f : TomlReader) (rest : Str) : Except Str (Bool × Str) :=
  let rest := skipWhitespaceAndComments rest
  if "true".toList.isPrefixOf rest then .ok (true, rest.drop 4)
  else if "false".toList.isPrefixOf rest then .ok (false, rest.drop 5)
  else f.fail rest "expected 'true' or 'false'".toList

/-- The value of a key, in the open dependency or at the top. -/
def ManifestState.readKey (f : TomlReader) (st : ManifestState) (key rest : Str) :
    Except Str (ManifestState × Str) :=
  match st.cur with
  | some d =>
    if key = "path".toList then do
      let (text, rest) ← f.parseString rest
      .ok ({ st with cur := some { d with path := text } }, rest)
    else if key = "version".toList then do
      let (text, rest) ← f.parseString rest
      .ok ({ st with cur := some { d with version := text } }, rest)
    else if key = "as".toList then do
      let (text, rest) ← f.parseString rest
      .ok ({ st with cur := some { d with as_ := text } }, rest)
    else if key = "dev".toList then do
      let (dev, rest) ← f.parseBool rest
      .ok ({ st with cur := some { d with dev := dev } }, rest)
    else f.fail rest ("unknown dep field '".toList ++ key ++ "'".toList)
  | none =>
    if key = "name".toList then do
      let (text, rest) ← f.parseString rest
      .ok ({ st with out := { st.out with name := text } }, rest)
    else if key = "entry".toList then do
      let (text, rest) ← f.parseString rest
      .ok ({ st with out := { st.out with entry := text } }, rest)
    else if key = "version".toList then do
      let (text, rest) ← f.parseString rest
      .ok ({ st with out := { st.out with version := text } }, rest)
    else if key = "out".toList then do
      let (text, rest) ← f.parseString rest
      .ok ({ st with out := { st.out with out := text } }, rest)
    else if key = "sources".toList then do
      let (items, rest) ← f.parseStringArray rest
      .ok ({ st with out := { st.out with sources := st.out.sources ++ items } }, rest)
    else if key = "assets".toList then do
      let (items, rest) ← f.parseStringArray rest
      .ok ({ st with out := { st.out with assets := st.out.assets ++ items } }, rest)
    else f.fail rest ("unknown manifest field '".toList ++ key ++ "'".toList)

/-- `parseManifest`. -/
def parseManifest (path text : Str) : Except Str ProjectManifest := do
  let f : TomlReader := ⟨path, text⟩
  let st ← f.readItems "dep".toList ManifestState.openDep (ManifestState.readKey f)
    (text.length + 1) {} text
  if st.manifest.deps.any (fun d => d.path.isEmpty) then
    f.fail [] "a [[dep]] is missing 'path'".toList
  else if st.manifest.sources.isEmpty then
    f.fail [] "manifest lists no 'sources' — a project needs at least one file".toList
  else .ok st.manifest

/-- One `key = value` line. -/
def manifestLine (key value : Str) : Str := key ++ (" = ".toList ++ (value ++ "\n".toList))

/-- A string field, left out if it is empty. -/
def stringField (key value : Str) : Str :=
  if value.isEmpty then [] else manifestLine key (Text.quote value)

/-- An array field, left out if it is empty. -/
def arrayField (key : Str) (values : List Str) : Str :=
  if values.isEmpty then []
  else manifestLine key
    ("[".toList ++ (List.intercalate ", ".toList (values.map Text.quote) ++ "]".toList))

/-- One `[[dep]]` table. -/
def renderDep (d : Dependency) : Str :=
  "\n[[dep]]\n".toList ++
    (manifestLine "path".toList (Text.quote d.path) ++
    (stringField "version".toList d.version ++
    (stringField "as".toList d.as_ ++
    if d.dev then manifestLine "dev".toList "true".toList else [])))

/-- The text `writeManifest` writes. -/
def renderManifest (m : ProjectManifest) : Str :=
  stringField "name".toList m.name ++
    (stringField "entry".toList m.entry ++
    (stringField "version".toList m.version ++
    (stringField "out".toList m.out ++
    (arrayField "sources".toList m.sources ++
    (arrayField "assets".toList m.assets ++
    m.deps.flatMap renderDep)))))

/-! ### What is read back -/

/-- A dependency after a round trip: its kind has to be inferred again. -/
def Dependency.readBack (d : Dependency) : Dependency := { d with kind := .Local }

/-- A manifest after a round trip. -/
def ProjectManifest.readBack (m : ProjectManifest) : ProjectManifest :=
  { m with deps := m.deps.map Dependency.readBack }

/-- Reading a truth value never lengthens the text. -/
theorem TomlReader.length_parseBool_le {f : TomlReader} {rest rest' : Str} {b : Bool}
    (h : f.parseBool rest = .ok (b, rest')) : rest'.length ≤ rest.length := by
  have hskip := length_skipWhitespaceAndComments_le rest
  unfold parseBool at h
  dsimp only at h
  split_ifs at h
  · cases h
    rw [List.length_drop]
    omega
  · cases h
    rw [List.length_drop]
    omega
  · cases h

section
variable {f : TomlReader} {st st' : ManifestState} {key rest rest' : Str}
  (h : st.readKey f key rest = .ok (st', rest'))
include h

/-- What reading a value can do: it changes one field, of the open dependency or of
the manifest, and never lengthens the text. -/
theorem ManifestState.readKey_cases :
    rest'.length ≤ rest.length ∧ st'.out.deps = st.out.deps ∧
      ((∃ d path version as_ dev, st.cur = some d ∧
          st'.cur = some { d with path := path, version := version, as_ := as_, dev := dev }) ∨
        (st.cur = none ∧ st'.cur = none)) := by
  have hstring : ∀ {g : Str → ManifestState},
      (f.parseString rest >>= fun p => .ok (g p.1, p.2)) = Except.ok (st', rest') →
      rest'.length ≤ rest.length ∧ ∃ text, st' = g text := by
    intro g hg
    obtain ⟨p, hp, hg⟩ := bind_eq_ok.mp hg
    cases hg
    exact ⟨(TomlReader.length_parseString hp).le, p.1, rfl⟩
  have harray : ∀ {g : List Str → ManifestState},
      (f.parseStringArray rest >>= fun p => .ok (g p.1, p.2)) = Except.ok (st', rest') →
      rest'.length ≤ rest.length ∧ ∃ items, st' = g items := by
    intro g hg
    obtain ⟨p, hp, hg⟩ := bind_eq_ok.mp hg
    cases hg
    exact ⟨TomlReader.length_parseStringArray_le hp, p.1, rfl⟩
  unfold readKey at h
  cases hcur : st.cur with
  | some d =>
    simp only [hcur] at h
    split_ifs at h
    · obtain ⟨hle, text, rfl⟩ := hstring (g := fun t => { st with cur := some { d with path := t } }) h
      exact ⟨hle, rfl, .inl ⟨d, text, d.version, d.as_, d.dev, rfl, rfl⟩⟩
    · obtain ⟨hle, text, rfl⟩ := hstring (g := fun t => { st with cur := some { d with version := t } }) h
      exact ⟨hle, rfl, .inl ⟨d, d.path, text, d.as_, d.dev, rfl, rfl⟩⟩
    · obtain ⟨hle, text, rfl⟩ := hstring (g := fun t => { st with cur := some { d with as_ := t } }) h
      exact ⟨hle, rfl, .inl ⟨d, d.path, d.version, text, d.dev, rfl, rfl⟩⟩
    · obtain ⟨⟨dev, res⟩, hdev, h⟩ := bind_eq_ok.mp h
      cases h
      exact ⟨TomlReader.length_parseBool_le hdev, rfl,
        .inl ⟨d, d.path, d.version, d.as_, dev, rfl, rfl⟩⟩
    · cases h
  | none =>
    simp only [hcur] at h
    split_ifs at h
    · obtain ⟨hle, text, rfl⟩ := hstring (g := fun t => { out := { st.out with name := t } }) h
      exact ⟨hle, rfl, .inr ⟨rfl, rfl⟩⟩
    · obtain ⟨hle, text, rfl⟩ := hstring (g := fun t => { out := { st.out with entry := t } }) h
      exact ⟨hle, rfl, .inr ⟨rfl, rfl⟩⟩
    · obtain ⟨hle, text, rfl⟩ := hstring (g := fun t => { out := { st.out with version := t } }) h
      exact ⟨hle, rfl, .inr ⟨rfl, rfl⟩⟩
    · obtain ⟨hle, text, rfl⟩ := hstring (g := fun t => { out := { st.out with out := t } }) h
      exact ⟨hle, rfl, .inr ⟨rfl, rfl⟩⟩
    · obtain ⟨hle, items, rfl⟩ := harray
        (g := fun items => { out := { st.out with sources := st.out.sources ++ items } }) h
      exact ⟨hle, rfl, .inr ⟨rfl, rfl⟩⟩
    · obtain ⟨hle, items, rfl⟩ := harray
        (g := fun items => { out := { st.out with assets := st.out.assets ++ items } }) h
      exact ⟨hle, rfl, .inr ⟨rfl, rfl⟩⟩
    · cases h

/-- Reading a value never lengthens the text. -/
theorem ManifestState.length_readKey_le : rest'.length ≤ rest.length :=
  (readKey_cases h).1

end

/-- The text from state `st` on is read to its end in `st'`. -/
abbrev ManifestReads (f : TomlReader) (st : ManifestState) (rest : Str) (st' : ManifestState) :
    Prop :=
  TomlReader.Reads f "dep".toList ManifestState.openDep (ManifestState.readKey f) st rest st'

section
variable {f : TomlReader} {st s st' : ManifestState} {key rest : Str}

/-- A printed line whose value is read back. -/
theorem ManifestReads.line {value : Str} (hkey : TomlReader.IsIdent key)
    (hvalue : TomlReader.skipWhitespaceAndComments (value ++ '\n' :: rest) = value ++ '\n' :: rest)
    (hread : st.readKey f key (value ++ '\n' :: rest) = .ok (s, '\n' :: rest))
    (h : ManifestReads f s rest st') : ManifestReads f st (manifestLine key value ++ rest) st' :=
  TomlReader.Reads.line (fun _ _ _ _ _ => ManifestState.length_readKey_le) hkey hvalue hread h

/-- A string field: if it was left out, the state has its value already. -/
theorem ManifestReads.stringField {value : Str} {g : Str → ManifestState}
    (hkey : TomlReader.IsIdent key) (hempty : g [] = st)
    (hread : ∀ text, st.readKey f key text = f.parseString text >>= fun p => .ok (g p.1, p.2))
    (h : ManifestReads f (g value) rest st') :
    ManifestReads f st (stringField key value ++ rest) st' := by
  unfold Trident.stringField
  cases value with
  | nil =>
    rw [hempty] at h
    exact h
  | cons c cs =>
    refine .line hkey (TomlReader.skip_quote (c :: cs) _) ?_ h
    rw [hread, TomlReader.parseString_quote, ok_bind]

/-- An array field. -/
theorem ManifestReads.arrayField {values : List Str} {g : List Str → ManifestState}
    (hkey : TomlReader.IsIdent key) (hempty : g [] = st)
    (hread : ∀ text, st.readKey f key text = f.parseStringArray text >>= fun p => .ok (g p.1, p.2))
    (h : ManifestReads f (g values) rest st') :
    ManifestReads f st (arrayField key values ++ rest) st' := by
  unfold Trident.arrayField
  cases values with
  | nil =>
    rw [hempty] at h
    exact h
  | cons v vs =>
    have htext : ("[".toList ++ (List.intercalate ", ".toList ((v :: vs).map Text.quote) ++
        "]".toList)) ++ '\n' :: rest =
        '[' :: (List.intercalate ", ".toList ((v :: vs).map Text.quote) ++
          ']' :: '\n' :: rest) := by
      simp
    refine .line hkey (TomlReader.skip_of_cons (by decide) (by decide)) ?_ h
    rw [htext, hread, TomlReader.parseStringArray_render, ok_bind]

/-- A printed dependency is read as one more. -/
theorem ManifestReads.dep {d : Dependency}
    (h : ManifestReads f { out := st.manifest, cur := some d.readBack } rest st') :
    ManifestReads f st (renderDep d ++ rest) st' := by
  have hassoc : ∀ a b c d e : Str, (a ++ (b ++ (c ++ (d ++ e)))) ++ rest =
      a ++ (b ++ (c ++ (d ++ (e ++ rest)))) := by simp
  unfold renderDep
  rw [hassoc]
  show ManifestReads f st
    ('\n' :: ("[[".toList ++ ("dep".toList ++ ("]]".toList ++ '\n' :: _)))) st'
  apply TomlReader.Reads.header (fun _ _ _ _ _ => ManifestState.length_readKey_le) (by decide)
  apply ManifestReads.line (by decide) (TomlReader.skip_quote _ _)
    (s := { out := st.manifest, cur := some { path := d.path } })
  · simp only [ManifestState.readKey, ManifestState.openDep]
    rw [if_pos trivial, TomlReader.parseString_quote, ok_bind]
  apply ManifestReads.stringField (by decide) (g := fun v =>
    { out := st.manifest, cur := some { path := d.path, version := v } }) rfl fun _ => rfl
  apply ManifestReads.stringField (by decide) (g := fun v =>
    { out := st.manifest, cur := some { path := d.path, version := d.version, as_ := v } }) rfl
    fun _ => rfl
  obtain ⟨path, version, as_, dev, kind⟩ := d
  cases dev with
  | false => exact h
  | true =>
    apply ManifestReads.line (by decide) (TomlReader.skip_of_cons (by decide) (by decide)) ?_ h
    have hbool : f.parseBool ("true".toList ++ '\n' :: rest) = .ok (true, '\n' :: rest) := rfl
    simp only [ManifestState.readKey]
    rw [if_neg (by decide), if_neg (by decide), if_neg (by decide), if_pos trivial, hbool, ok_bind]
    rfl

/-- The printed dependencies are read in order. -/
theorem ManifestReads.exists_deps (f : TomlReader) (ds : List Dependency) (st : ManifestState) :
    ∃ st', ManifestReads f st (ds.flatMap renderDep) st' ∧
      st'.manifest = { st.manifest with deps := st.manifest.deps ++ ds.map Dependency.readBack } := by
  induction ds generalizing st with
  | nil => exact ⟨st, TomlReader.Reads.nil st, by simp⟩
  | cons d ds ih =>
    obtain ⟨st', hreads, hmanifest⟩ := ih { out := st.manifest, cur := some d.readBack }
    refine ⟨st', ?_, ?_⟩
    · rw [List.flatMap_cons]
      exact hreads.dep
    · rw [hmanifest]
      simp [ManifestState.manifest]

/-- The printed manifest is read from its first line to its last dependency. -/
theorem ManifestReads.exists_manifest (f : TomlReader) (m : ProjectManifest) :
    ∃ st', ManifestReads f {} (renderManifest m) st' ∧ st'.manifest = m.readBack := by
  obtain ⟨name, entry, sources, assets, deps, version, out⟩ := m
  obtain ⟨st', hreads, hmanifest⟩ := ManifestReads.exists_deps f deps
    { out := { name := name, entry := entry, version := version, out := out, sources := sources,
               assets := assets } }
  refine ⟨st', ?_, by rw [hmanifest]; rfl⟩
  unfold renderManifest
  dsimp only
  apply ManifestReads.stringField (by decide) (g := fun v => { out := { name := v } }) rfl
    fun _ => rfl
  apply ManifestReads.stringField (by decide)
    (g := fun v => { out := { name := name, entry := v } }) rfl fun _ => rfl
  apply ManifestReads.stringField (by decide)
    (g := fun v => { out := { name := name, entry := entry, version := v } }) rfl fun _ => rfl
  apply ManifestReads.stringField (by decide)
    (g := fun v => { out := { name := name, entry := entry, version := version, out := v } }) rfl
    fun _ => rfl
  apply ManifestReads.arrayField (by decide) (g := fun vs =>
    { out := { name := name, entry := entry, version := version, out := out, sources := vs } })
    rfl fun _ => rfl
  apply ManifestReads.arrayField (by decide) (g := fun vs =>
    { out := { name := name, entry := entry, version := version, out := out, sources := sources,
               assets := vs } }) rfl (fun _ => rfl) hreads

end

/-- **What a manifest loses.**  Reading a written manifest back gives all its fields,
with the kinds of the dependencies to be inferred again; it fails exactly where a
dependency has no path or there are no sources. -/
theorem parseManifest_render (path : Str) (m : ProjectManifest) :
    parseManifest path (renderManifest m) =
      if m.deps.any (fun d => d.path.isEmpty) then
        TomlReader.fail ⟨path, renderManifest m⟩ [] "a [[dep]] is missing 'path'".toList
      else if m.sources.isEmpty then
        TomlReader.fail ⟨path, renderManifest m⟩ []
          "manifest lists no 'sources' — a project needs at least one file".toList
      else .ok m.readBack := by
  obtain ⟨st', hreads, hmanifest⟩ := ManifestReads.exists_manifest ⟨path, renderManifest m⟩ m
  have hpath : m.readBack.deps.any (fun d => d.path.isEmpty) =
      m.deps.any (fun d => d.path.isEmpty) := by
    unfold ProjectManifest.readBack
    rw [List.any_map]
    rfl
  unfold parseManifest
  dsimp only
  rw [hreads _ (Nat.lt_succ_self _), ok_bind, hmanifest, hpath]
  rfl

/-- A manifest that has been read: its kinds are still to be inferred, its
dependencies have paths, and it has sources. -/
structure ProjectManifest.Parsed (m : ProjectManifest) : Prop where
  kind : ∀ d ∈ m.deps, d.kind = .Local
  path : ∀ d ∈ m.deps, d.path ≠ []
  sources : m.sources ≠ []

/-- No step of the reader sets the kind of a dependency. -/
theorem ManifestState.readKey_kind {f : TomlReader} {st st' : ManifestState} {key rest rest' : Str}
    (hkind : ∀ d ∈ st.manifest.deps, d.kind = .Local)
    (h : st.readKey f key rest = .ok (st', rest')) : ∀ d ∈ st'.manifest.deps, d.kind = .Local := by
  obtain ⟨-, hdeps, hcur⟩ := readKey_cases h
  unfold manifest at hkind ⊢
  dsimp only at hkind ⊢
  rw [hdeps]
  rcases hcur with ⟨d, path, version, as_, dev, hd, hd'⟩ | ⟨hd, hd'⟩
  · rw [hd] at hkind
    rw [hd']
    intro e he
    rcases List.mem_append.mp he with he | he
    · exact hkind e (List.mem_append_left _ he)
    · rw [List.mem_singleton.mp he]
      exact hkind d (List.mem_append_right _ List.mem_cons_self)
  · rw [hd] at hkind
    rw [hd']
    exact hkind

/-- What `parseManifest` returns has been read. -/
theorem parseManifest_parsed {path text : Str} {m : ProjectManifest}
    (h : parseManifest path text = .ok m) : m.Parsed := by
  unfold parseManifest at h
  obtain ⟨st, hst, h⟩ := bind_eq_ok.mp h
  have hkind : ∀ d ∈ st.manifest.deps, d.kind = .Local := by
    refine TomlReader.readItems_invariant (P := fun s => ∀ d ∈ s.manifest.deps, d.kind = .Local)
      ?_ (fun _ _ _ _ _ => ManifestState.readKey_kind) ?_ hst
    · intro s hs d hd
      rcases List.mem_append.mp hd with hd | hd
      · exact hs d hd
      · rw [List.mem_singleton.mp hd]
    · intro d hd
      cases hd
  split_ifs at h with hpath hsources
  · cases h
  · cases h
  · rw [← Except.ok.inj h]
    refine ⟨hkind, ?_, ?_⟩
    · intro d hd hempty
      apply hpath
      refine List.any_eq_true.mpr ⟨d, hd, ?_⟩
      rw [hempty]
      rfl
    · intro hempty
      apply hsources
      rw [hempty]
      rfl

/-- A manifest with sources is read back if its dependencies have paths. -/
theorem parseManifest_render_of {path : Str} {m : ProjectManifest}
    (hpath : ∀ d ∈ m.deps, d.path ≠ []) (hsources : m.sources ≠ []) :
    parseManifest path (renderManifest m) = .ok m.readBack := by
  rw [parseManifest_render, if_neg, if_neg]
  · intro hempty
    exact hsources (List.isEmpty_iff.mp hempty)
  · intro hany
    obtain ⟨d, hd, hempty⟩ := List.any_eq_true.mp hany
    exact hpath d hd (List.isEmpty_iff.mp hempty)

/-- A manifest that has been read loses nothing. -/
theorem ProjectManifest.Parsed.readBack_eq {m : ProjectManifest} (h : m.Parsed) :
    m.readBack = m := by
  have hdeps : m.deps.map Dependency.readBack = m.deps.map id := by
    apply List.map_congr_left
    intro d hd
    unfold Dependency.readBack
    rw [← h.kind d hd]
    rfl
  unfold readBack
  rw [hdeps, List.map_id]

/-- **The codec of a manifest.**  A manifest that was read is written and read again
without a change; and if its dependencies are edited before it is written, to any
list with paths, every other field comes back as it was. -/
theorem parseManifest_renderManifest {path text : Str} {m : ProjectManifest}
    (h : parseManifest path text = .ok m) (path' : Str) :
    parseManifest path' (renderManifest m) = .ok m ∧
      ∀ deps, (∀ d ∈ deps, d.path ≠ []) →
        parseManifest path' (renderManifest { m with deps := deps }) =
          .ok { m with deps := deps.map Dependency.readBack } := by
  have hparsed := parseManifest_parsed h
  constructor
  · rw [parseManifest_render_of hparsed.path hparsed.sources, hparsed.readBack_eq]
  · intro deps hdeps
    exact parseManifest_render_of (m := { m with deps := deps }) hdeps hparsed.sources

/-- The manifest of the format's description, with quotes in its strings. -/
theorem parseManifest_renderManifest_hello :
    let text := "name = \"a\\\"b\" # hi\nsources = [\"m.lev\",]\n[[dep]]\npath=\"j\"\ndev=true".toList
    let m : ProjectManifest :=
      { name := "a\"b".toList, sources := ["m.lev".toList],
        deps := [{ path := "j".toList, dev := true }] }
    parseManifest [] text = .ok m ∧ parseManifest [] (renderManifest m) = .ok m := by
  have hparse : parseManifest []
      "name = \"a\\\"b\" # hi\nsources = [\"m.lev\",]\n[[dep]]\npath=\"j\"\ndev=true".toList =
      .ok { name := "a\"b".toList, sources := ["m.lev".toList],
            deps := [{ path := "j".toList, dev := true }] } := by
    decide +kernel
  exact ⟨hparse, (parseManifest_renderManifest hparse []).1⟩

end Leviathan.Trident
