import NativeBuild.Project
import NativeBuild.Proofs.Manifest.Tables

/-!
# Empty paths in a manifest

A setting with an empty path does not count as left out: the path is taken for one that starts from
the manifest's directory, as every relative path does, so it is this directory. Only where the
directory has no name itself is the empty path nothing.
-/
namespace NativeBuild

open Manifest

variable {base : Path}

/-- An empty path is the directory of the manifest. -/
theorem Project.placed_nil (h : base ≠ []) : placed base [] = Path.join base [] := by
  simp [placed, Path.isAbsolute, h]

theorem Path.join_ne_nil_of_ne_nil (h : base ≠ []) (p : Path) : Path.join base p ≠ [] := by
  unfold Path.join
  split_ifs with habsolute hname
  · rintro rfl
    exact absurd habsolute (by decide)
  · simp
  · simp [h]

/-- The settings of a manifest that are paths. -/
inductive PathSetting where
  | temp
  | cache
  | staging
  | baselib
  | generatorFolder
  | stripper
  | nativeCache
  | sysroot
  | toolchain
  deriving DecidableEq

namespace PathSetting

/-- The name of the table, or of the array entries, in which the setting stands. -/
def title : PathSetting → Text
  | .temp | .cache | .staging | .baselib => utf8 "paths"
  | .generatorFolder | .stripper => utf8 "tools"
  | .nativeCache => utf8 "native"
  | .sysroot | .toolchain => utf8 "toolchain"

def isEntry : PathSetting → Bool
  | .sysroot | .toolchain => true
  | _ => false

def key : PathSetting → Text
  | .temp => utf8 "temp"
  | .cache => utf8 "cache"
  | .staging => utf8 "staging"
  | .baselib => utf8 "baselib"
  | .generatorFolder => utf8 "codegen-folder"
  | .stripper => utf8 "stripper"
  | .nativeCache => utf8 "cache"
  | .sysroot => utf8 "sysroot"
  | .toolchain => utf8 "tool-chain"

def putDeclaration (S : PathSetting) (path : Path) (d : Declaration) : Declaration :=
  match S with
  | .sysroot => { d with sysroot := path }
  | .toolchain => { d with tools := path }
  | _ => d

/-- The project with another path under the setting; for a setting of a toolchain, in the one that
stands behind `i` others. -/
def put (S : PathSetting) (i : ℕ) (path : Path) (p : Project) : Project :=
  match S with
  | .temp => { p with paths := { p.paths with temp := path } }
  | .cache => { p with paths := { p.paths with cache := path } }
  | .staging => { p with paths := { p.paths with staging := path } }
  | .baselib => { p with options := { p.options with baselibDirectory := path } }
  | .generatorFolder => { p with tools := { p.tools with generatorFolder := path } }
  | .stripper => { p with tools := { p.tools with stripper := path } }
  | .nativeCache => { p with native := p.native.map fun n => { n with cache := path } }
  | .sysroot | .toolchain =>
    { p with toolchains := p.toolchains.modify i (S.putDeclaration path) }

end PathSetting

/-- A section with an empty path, and one that has the same settings otherwise. -/
structure EmptyAt (key : Text) (s s' : Section) : Prop where
  empty : s.values.get? key = some (.string [])
  others : ∀ other ≠ key, s.values.get? other = s'.values.get? other

namespace EmptyAt

variable {key other : Text} {s s' : Section}

theorem string?_eq (h : EmptyAt key s s') (hne : other ≠ key) :
    s.string? other = s'.string? other := by
  rw [Section.string?, h.others other hne, Section.string?]

theorem pathOr_eq (h : EmptyAt key s s') (hne : other ≠ key) (default : Path) :
    Project.pathOr base s other default = Project.pathOr base s' other default := by
  rw [Project.pathOr, h.string?_eq hne, Project.pathOr]

theorem textOf_eq (h : EmptyAt key s s') (hne : other ≠ key) :
    Project.textOf s other = Project.textOf s' other := by
  rw [Project.textOf, h.string?_eq hne, Project.textOf]

theorem pathOr_empty (h : EmptyAt key s s') (default : Path) :
    Project.pathOr base s key default = Project.placed base [] := by
  rw [Project.pathOr, Section.string?, h.empty]
  rfl

/-- Where the directory has no name, nothing is read from either section. -/
theorem pathOr_nil (h : EmptyAt key s s') (habsent : s'.string? key = none) :
    Project.pathOr [] s key [] = Project.pathOr [] s' key [] := by
  rw [h.pathOr_empty, Project.pathOr, habsent]
  rfl

end EmptyAt

namespace Project

/-- The project of what is read from the tables of a manifest. -/
def assemble (base : Path) (codegen paths tools : Option Section) (options : BuildOptions)
    (native : Option NativeLibrary) (toolchains : List Declaration) : Project :=
  let p : Project := { options := codegen.elim options fun s => readGeneration base s options }
  let p := paths.elim p fun s => readPaths base s p
  withDefaults base
    { p with tools := tools.elim p.tools fun s => readTools base s p.tools, native, toolchains }

theorem ofDocument_eq (base : Path) (d : Document) :
    ofDocument base d = (do
      let options ← (d.table? (utf8 "build")).elim (pure {}) fun s => readOptions s {}
      let native ← (d.table? (utf8 "native")).elim (pure none) fun s => some <$> readNative base s
      let toolchains ← (d.array (utf8 "toolchain")).mapM (readToolchain base)
      return assemble base (d.table? (utf8 "codegen")) (d.table? (utf8 "paths"))
        (d.table? (utf8 "tools")) options native toolchains) := by
  unfold ofDocument assemble
  cases d.table? (utf8 "build") <;> cases d.table? (utf8 "codegen") <;>
    cases d.table? (utf8 "paths") <;> cases d.table? (utf8 "tools") <;>
    cases d.table? (utf8 "native") <;> simp

section Reading

/-- A path of the manifest, or the default where it is empty. -/
def orElse (given default : Path) : Path := if given = [] then default else given

theorem orElse_of_ne {given : Path} (h : given ≠ []) (default : Path) :
    orElse given default = given :=
  if_neg h

theorem withDefaults_eq (base : Path) (p : Project) :
    withDefaults base p = { p with
      paths :=
        { temp := orElse p.paths.temp (placed base (utf8 "Temp/AotBuild"))
          cache := orElse p.paths.cache (placed base (defaultCache p.options.target))
          staging := orElse p.paths.staging (placed base (utf8 "Staging/Data")) } } := rfl

variable {S : PathSetting} {s s' : Section} {i : ℕ}

theorem readPaths_eq_put (hS : S.title = utf8 "paths") (h : EmptyAt S.key s s') (i : ℕ)
    (p : Project) : readPaths base s p = S.put i (placed base []) (readPaths base s' p) := by
  cases S with
  | temp | cache | staging | baselib =>
    rw [PathSetting.key] at h
    simp (disch := decide) only [readPaths, PathSetting.put, h.pathOr_eq, h.pathOr_empty]
  | _ => exact absurd hS (by decide)

theorem readTools_eq_put (hS : S.title = utf8 "tools") (h : EmptyAt S.key s s') (i : ℕ)
    (p : Project) : { p with tools := readTools base s p.tools } =
      S.put i (placed base []) { p with tools := readTools base s' p.tools } := by
  cases S with
  | generatorFolder | stripper =>
    rw [PathSetting.key] at h
    simp (disch := decide) only [readTools, PathSetting.put, h.pathOr_eq, h.pathOr_empty,
      h.string?_eq]
  | _ => exact absurd hS (by decide)

theorem readNative_eq_put (h : EmptyAt PathSetting.nativeCache.key s s') :
    readNative base s =
      (readNative base s').map fun n => { n with cache := placed base [] } := by
  rw [PathSetting.key] at h
  simp (disch := decide) only [readNative, h.textOf_eq, h.string?_eq, h.pathOr_empty]
  split_ifs <;> rfl

theorem readToolchain_eq_put (hS : S.title = utf8 "toolchain") (h : EmptyAt S.key s s') :
    readToolchain base s =
      (readToolchain base s').map fun d => S.putDeclaration (placed base []) d := by
  cases S with
  | sysroot | toolchain =>
    rw [PathSetting.key] at h
    simp (disch := decide) only [readToolchain, h.textOf_eq, h.pathOr_eq, h.pathOr_empty]
    split_ifs <;> rfl
  | _ => exact absurd hS (by decide)

/-- A path that is given has no say in the defaults of the others. -/
theorem withDefaults_put (hbase : base ≠ []) (p : Project) :
    withDefaults base (S.put i (placed base []) p) =
      S.put i (placed base []) (withDefaults base p) := by
  have hne : placed base [] ≠ [] := placed_nil hbase ▸ Path.join_ne_nil_of_ne_nil hbase []
  cases S with
  | temp | cache | staging =>
    rw [withDefaults_eq, withDefaults_eq]
    simp only [PathSetting.put, orElse_of_ne hne]
  | _ => rfl

variable {codegen paths tools : Option Section} {options : BuildOptions}
  {native : Option NativeLibrary} {toolchains : List Declaration}

theorem assemble_paths (hS : S.title = utf8 "paths") (h : EmptyAt S.key s s') (hbase : base ≠ [])
    (i : ℕ) : assemble base codegen (some s) tools options native toolchains =
      S.put i (placed base [])
        (assemble base codegen (some s') tools options native toolchains) := by
  simp only [assemble, Option.elim_some]
  rw [readPaths_eq_put hS h i, ← withDefaults_put hbase]
  cases S with
  | temp | cache | staging | baselib => rfl
  | _ => exact absurd hS (by decide)

theorem assemble_tools (hS : S.title = utf8 "tools") (h : EmptyAt S.key s s') (hbase : base ≠ [])
    (i : ℕ) : assemble base codegen paths (some s) options native toolchains =
      S.put i (placed base [])
        (assemble base codegen paths (some s') options native toolchains) := by
  simp only [assemble, Option.elim_some]
  rw [← withDefaults_put hbase]
  generalize (paths.elim _ _ : Project) = p
  exact congrArg (withDefaults base) (readTools_eq_put hS h i { p with native, toolchains })

theorem assemble_native (base : Path) (i : ℕ) :
    assemble base codegen paths tools options
        (native.map fun n => { n with cache := placed base [] }) toolchains =
      PathSetting.nativeCache.put i (placed base [])
        (assemble base codegen paths tools options native toolchains) := rfl

theorem assemble_toolchains (hS : S.title = utf8 "toolchain") (i : ℕ) :
    assemble base codegen paths tools options native
        (toolchains.modify i (S.putDeclaration (placed base []))) =
      S.put i (placed base [])
        (assemble base codegen paths tools options native toolchains) := by
  cases S with
  | sysroot | toolchain => rfl
  | _ => exact absurd hS (by decide)

/-- Where the directory has no name, an empty path is no path. -/
theorem assemble_paths_nil (hS : S.title = utf8 "paths") (h : EmptyAt S.key s s')
    (habsent : s'.string? S.key = none) (hoptions : options.baselibDirectory = []) :
    assemble [] codegen (some s) tools options native toolchains =
      assemble [] codegen (some s') tools options native toolchains := by
  have hread : ∀ p : Project, p.paths = {} → p.options.baselibDirectory = [] →
      readPaths [] s p = readPaths [] s' p := by
    intro p hpaths hbaselib
    cases S with
    | temp | cache | staging | baselib =>
      rw [PathSetting.key] at h habsent
      simp (disch := decide) only [readPaths, hpaths, hbaselib, h.pathOr_eq, h.pathOr_nil habsent]
    | _ => exact absurd hS (by decide)
  simp only [assemble, Option.elim_some]
  rw [hread]
  · rfl
  · cases codegen <;> exact hoptions

theorem assemble_tools_nil (hS : S.title = utf8 "tools") (h : EmptyAt S.key s s')
    (habsent : s'.string? S.key = none) :
    assemble [] codegen paths (some s) options native toolchains =
      assemble [] codegen paths (some s') options native toolchains := by
  have hread : readTools [] s {} = readTools [] s' {} := by
    cases S with
    | generatorFolder | stripper =>
      rw [PathSetting.key] at h habsent
      simp (disch := decide) only [readTools, h.pathOr_eq, h.string?_eq, h.pathOr_nil habsent]
    | _ => exact absurd hS (by decide)
  have htools : ∀ p : Project, p.tools = {} →
      (paths.elim p fun s => readPaths [] s p).tools = {} := by
    intro p hp
    cases paths <;> exact hp
  simp only [assemble, Option.elim_some]
  rw [htools _ rfl, hread]

theorem readNative_nil (h : EmptyAt PathSetting.nativeCache.key s s')
    (habsent : s'.string? PathSetting.nativeCache.key = none) :
    readNative [] s = readNative [] s' := by
  rw [PathSetting.key] at h habsent
  simp (disch := decide) only [readNative, h.textOf_eq, h.string?_eq, h.pathOr_nil habsent]

theorem readToolchain_nil (hS : S.title = utf8 "toolchain") (h : EmptyAt S.key s s')
    (habsent : s'.string? S.key = none) : readToolchain [] s = readToolchain [] s' := by
  cases S with
  | sysroot | toolchain =>
    rw [PathSetting.key] at h habsent
    simp (disch := decide) only [readToolchain, h.textOf_eq, h.pathOr_eq, h.pathOr_nil habsent]
  | _ => exact absurd hS (by decide)

theorem ok_of_bind {ε α β : Type} {x : Except ε α} {f : α → Except ε β} {b : β}
    (h : x >>= f = .ok b) : ∃ a, f a = .ok b := by
  cases x with
  | error => cases h
  | ok a => exact ⟨a, h⟩

theorem baselibDirectory_of_readOptions {options' : BuildOptions}
    (h : readOptions s options = .ok options') :
    options'.baselibDirectory = options.baselibDirectory := by
  obtain ⟨target, h⟩ := ok_of_bind h
  obtain ⟨profile, h⟩ := ok_of_bind h
  obtain ⟨stripping, h⟩ := ok_of_bind h
  obtain rfl := Except.ok.inj h
  rfl

end Reading

section Documents

variable {S : PathSetting} {s s' : Section} {d d' : Document}

theorem map_id_eq {ε α : Type} (x : Except ε α) : x = x.map id := by
  cases x <;> rfl

/-- What is put into a part is found in the whole. -/
theorem bind_eq_map {ε α β γ δ : Type} {x : Except ε α} {y y' : Except ε β} {z z' : Except ε γ}
    {F G : α → β → γ → δ} {inNative : β → β} {inToolchains : γ → γ} {put : δ → δ}
    (hy : y = y'.map inNative) (hz : z = z'.map inToolchains)
    (h : ∀ a b c, F a (inNative b) (inToolchains c) = put (G a b c)) :
    (do let a ← x; let b ← y; let c ← z; return F a b c) =
      (do let a ← x; let b ← y'; let c ← z'; return G a b c).map put := by
  subst hy hz
  cases x with
  | error => rfl
  | ok a =>
    cases y' with
    | error => rfl
    | ok b =>
      cases z' with
      | error => rfl
      | ok c => exact congrArg Except.ok (h a b c)

/-- What is put into one of the things that are read is put into the one in its place. -/
theorem mapM_eq_map {ε α β : Type} {f : α → Except ε β} {put : β → β} {a a' : α}
    (h : f a = (f a').map put) (before after : List α) :
    (before ++ a :: after).mapM f =
      ((before ++ a' :: after).mapM f).map (List.modify · before.length put) := by
  induction before with
  | nil =>
    rw [List.nil_append, List.nil_append, List.mapM_cons, List.mapM_cons, h]
    cases f a' with
    | error => rfl
    | ok b => cases after.mapM f <;> rfl
  | cons first before ih =>
    rw [List.cons_append, List.cons_append, List.mapM_cons, List.mapM_cons, ih]
    cases f first with
    | error => rfl
    | ok b => cases (before ++ a' :: after).mapM f <;> rfl

theorem title_of_table (hS : S.isEntry = false) :
    S.title = utf8 "paths" ∨ S.title = utf8 "tools" ∨ S = .nativeCache := by
  cases S <;> first | exact .inl rfl | exact .inr (.inl rfl) | exact .inr (.inr rfl) | cases hS

theorem title_of_entry (hS : S.isEntry = true) : S.title = utf8 "toolchain" := by
  cases S with
  | sysroot | toolchain => rfl
  | _ => cases hS

/-- In a table the empty path becomes the directory of the manifest. -/
theorem ofDocument_table (hS : S.isEntry = false) (hs : d.table? S.title = some s)
    (hs' : d'.table? S.title = some s') (h : EmptyAt S.key s s')
    (tables : ∀ name ≠ S.title, d.table? name = d'.table? name)
    (arrays : ∀ name, d.array name = d'.array name) (hbase : base ≠ []) (i : ℕ) :
    ofDocument base d = (ofDocument base d').map (S.put i (placed base [])) := by
  rw [ofDocument_eq, ofDocument_eq, arrays]
  obtain htitle | htitle | rfl := title_of_table hS
  · rw [htitle] at hs hs' tables
    rw [tables (utf8 "build") (by decide), tables (utf8 "codegen") (by decide),
      tables (utf8 "tools") (by decide), tables (utf8 "native") (by decide), hs, hs']
    exact bind_eq_map (map_id_eq _) (map_id_eq _) fun _ _ _ => assemble_paths htitle h hbase i
  · rw [htitle] at hs hs' tables
    rw [tables (utf8 "build") (by decide), tables (utf8 "codegen") (by decide),
      tables (utf8 "paths") (by decide), tables (utf8 "native") (by decide), hs, hs']
    exact bind_eq_map (map_id_eq _) (map_id_eq _) fun _ _ _ => assemble_tools htitle h hbase i
  · rw [PathSetting.title] at hs hs' tables
    rw [tables (utf8 "build") (by decide), tables (utf8 "codegen") (by decide),
      tables (utf8 "paths") (by decide), tables (utf8 "tools") (by decide), hs, hs',
      Option.elim_some, Option.elim_some, readNative_eq_put h]
    have hnative : some <$> (readNative base s').map (fun n => { n with cache := placed base [] }) =
        (some <$> readNative base s').map
          (Option.map fun n => { n with cache := placed base [] }) := by
      cases readNative base s' <;> rfl
    exact bind_eq_map hnative (map_id_eq _) fun _ _ _ => assemble_native base i

/-- In an array entry as well; the other entries keep their places. -/
theorem ofDocument_entry (hS : S.isEntry = true) (h : EmptyAt S.key s s')
    {before after : List Section} (hs : d.array S.title = before ++ s :: after)
    (hs' : d'.array S.title = before ++ s' :: after)
    (tables : ∀ name, d.table? name = d'.table? name) :
    ofDocument base d = (ofDocument base d').map (S.put before.length (placed base [])) := by
  have htitle := title_of_entry hS
  rw [htitle] at hs hs'
  rw [ofDocument_eq, ofDocument_eq, hs, hs', tables, tables, tables, tables, tables]
  exact bind_eq_map (map_id_eq _) (mapM_eq_map (readToolchain_eq_put htitle h) before after)
    fun _ _ _ => assemble_toolchains htitle before.length

theorem ofDocument_table_nil (hS : S.isEntry = false) (hs : d.table? S.title = some s)
    (hs' : d'.table? S.title = some s') (h : EmptyAt S.key s s')
    (habsent : s'.string? S.key = none)
    (tables : ∀ name ≠ S.title, d.table? name = d'.table? name)
    (arrays : ∀ name, d.array name = d'.array name) :
    ofDocument [] d = ofDocument [] d' := by
  rw [ofDocument_eq, ofDocument_eq, arrays]
  obtain htitle | htitle | rfl := title_of_table hS
  · rw [htitle] at hs hs' tables
    rw [tables (utf8 "build") (by decide), tables (utf8 "codegen") (by decide),
      tables (utf8 "tools") (by decide), tables (utf8 "native") (by decide), hs, hs']
    have hoptions : ∀ options, (d'.table? (utf8 "build")).elim (pure {})
        (fun s => readOptions s {}) = .ok options → options.baselibDirectory = [] := by
      intro options hread
      cases htable : d'.table? (utf8 "build") with
      | none =>
        rw [htable] at hread
        obtain rfl := Except.ok.inj hread
        rfl
      | some s =>
        rw [htable] at hread
        exact baselibDirectory_of_readOptions hread
    cases hread : (d'.table? (utf8 "build")).elim (pure {}) fun s => readOptions s {} with
    | error => rfl
    | ok options =>
      simp only [assemble_paths_nil htitle h habsent (hoptions options hread), bind, Except.bind]
  · rw [htitle] at hs hs' tables
    rw [tables (utf8 "build") (by decide), tables (utf8 "codegen") (by decide),
      tables (utf8 "paths") (by decide), tables (utf8 "native") (by decide), hs, hs']
    simp only [assemble_tools_nil htitle h habsent]
  · rw [PathSetting.title] at hs hs' tables
    rw [tables (utf8 "build") (by decide), tables (utf8 "codegen") (by decide),
      tables (utf8 "paths") (by decide), tables (utf8 "tools") (by decide), hs, hs',
      Option.elim_some, Option.elim_some, readNative_nil h habsent]

theorem ofDocument_entry_nil (hS : S.isEntry = true) (h : EmptyAt S.key s s')
    (habsent : s'.string? S.key = none) {before after : List Section}
    (hs : d.array S.title = before ++ s :: after) (hs' : d'.array S.title = before ++ s' :: after)
    (tables : ∀ name, d.table? name = d'.table? name) :
    ofDocument [] d = ofDocument [] d' := by
  have htitle := title_of_entry hS
  rw [htitle] at hs hs'
  rw [ofDocument_eq, ofDocument_eq, hs, hs', tables, tables, tables, tables, tables]
  rw [List.mapM_append, List.mapM_append, List.mapM_cons, List.mapM_cons,
    readToolchain_nil htitle h habsent]

end Documents

end Project

section Texts

variable {S : PathSetting} {outer rest : List Statement} {before after : List (Text × Value)}

/-- The block of the setting with these settings. -/
def PathSetting.block (S : PathSetting) (settings : List (Text × Value)) : Block :=
  ⟨S.title, S.isEntry, settings⟩

theorem PathSetting.title_ne_nil (S : PathSetting) : S.title ≠ [] := by
  cases S <;> decide

theorem get?_around {v : Value} {key other : Text} (h : other ≠ key ∨ key ∈ after.map (·.1)) :
    Dictionary.get? other (Dictionary.ofList (before ++ (key, v) :: after)) =
      Dictionary.get? other (Dictionary.ofList (before ++ after)) := by
  rw [Dictionary.get?_ofList, Dictionary.get?_ofList, List.reverse_append, List.reverse_cons,
    List.reverse_append, Dictionary.get?_append, Dictionary.get?_append, Dictionary.get?_append]
  by_cases hne : other = key
  · subst hne
    have hafter : (Dictionary.get? other after.reverse).isSome = true := by
      rw [← Dictionary.mem_keys_iff]
      simpa using h
    rw [Option.or_of_isSome hafter, Option.or_of_isSome hafter]
  · simp [Dictionary.get?, hne]

theorem emptyAt_block (before : List (Text × Value)) (hafter : S.key ∉ after.map (·.1)) :
    EmptyAt S.key (S.block (before ++ (S.key, .string []) :: after)).toSection
      (S.block (before ++ after)).toSection := by
  refine ⟨?_, fun other hne => get?_around (.inl hne)⟩
  have hnone : Dictionary.get? S.key after.reverse = none := by
    refine Dictionary.get?_eq_none ?_
    simpa using hafter
  change Dictionary.get? S.key (Dictionary.ofList _) = _
  rw [PathSetting.block, Dictionary.get?_ofList, List.reverse_append, List.reverse_cons,
    Dictionary.get?_append, Dictionary.get?_append, hnone]
  simp [Dictionary.get?]

theorem string?_block_eq_none (hbefore : S.key ∉ before.map (·.1))
    (hafter : S.key ∉ after.map (·.1)) :
    (S.block (before ++ after)).toSection.string? S.key = none := by
  have hkeys : S.key ∉ (before ++ after).reverse.map (·.1) := by
    rw [List.map_reverse, List.mem_reverse, List.map_append, List.mem_append, not_or]
    exact ⟨hbefore, hafter⟩
  have hnone : Dictionary.get? S.key (Dictionary.ofList (before ++ after)) = none := by
    rw [Dictionary.get?_ofList, Dictionary.get?_eq_none hkeys]
  rw [Section.string?]
  exact hnone ▸ rfl

/-- Nothing is read from the setting: another one with its key comes later, or the table is not the
first one of its name. -/
def PathSetting.Unread (S : PathSetting) (outer : List Statement)
    (after : List (Text × Value)) : Prop :=
  S.key ∈ after.map (·.1) ∨ S.isEntry = false ∧ .header S.title false ∈ outer

/-- The document of a text with a block of the setting in the middle. -/
theorem parse_around (hrest : settingsAhead rest = []) {t : Text} {settings : List (Text × Value)}
    (h : Written t (around outer (S.block settings) rest)) (base : Path) :
    Project.parse base t = Project.ofDocument base
      ⟨sectionsOf outer ++ (S.block settings).toSection :: (blocks rest).map Block.toSection⟩ := by
  rw [Project.parse, sections_of_written h, sectionsOf_around hrest]

/-- Under all other headers the same is found, whatever the settings of the block are. -/
theorem table?_block {name : Text} (hname : name ≠ S.title) (before after : List Section)
    (settings settings' : List (Text × Value)) :
    Document.table? ⟨before ++ (S.block settings).toSection :: after⟩ name =
      Document.table? ⟨before ++ (S.block settings').toSection :: after⟩ name := by
  rw [table?_of_other (.inr hname.symm), table?_of_other (.inr hname.symm)]

theorem array_block (hS : S.isEntry = false) (before after : List Section)
    (settings settings' : List (Text × Value)) (name : Text) :
    Document.array ⟨before ++ (S.block settings).toSection :: after⟩ name =
      Document.array ⟨before ++ (S.block settings').toSection :: after⟩ name := by
  rw [array_of_other (.inl hS), array_of_other (.inl hS)]

/-- A text without a setting that is not read gives the same project. -/
theorem parse_eq_of_unread (hrest : settingsAhead rest = []) {t t' : Text} {v : Value}
    (h : Written t (around outer (S.block (before ++ (S.key, v) :: after)) rest))
    (h' : Written t' (around outer (S.block (before ++ after)) rest))
    (hunread : S.Unread outer after) (base : Path) :
    Project.parse base t = Project.parse base t' := by
  rw [parse_around hrest h, parse_around hrest h']
  obtain hkey | ⟨hisEntry, hheader⟩ := hunread
  · -- The dictionary keeps a later value.
    have hvalues : Dictionary.ofList (before ++ (S.key, v) :: after) =
        Dictionary.ofList (before ++ after) :=
      (Dictionary.isSorted_ofList _).ext (Dictionary.isSorted_ofList _)
        fun other => get?_around (.inr hkey)
    rw [Block.toSection, Block.toSection, PathSetting.block, PathSetting.block, hvalues]
  · have htables (name : Text) : Document.table? ⟨sectionsOf outer ++
          (S.block (before ++ (S.key, v) :: after)).toSection ::
            (blocks rest).map Block.toSection⟩ name =
        Document.table? ⟨sectionsOf outer ++
          (S.block (before ++ after)).toSection :: (blocks rest).map Block.toSection⟩ name := by
      by_cases hname : name = S.title
      · rw [hname, table?_of_header hheader, table?_of_header hheader]
      · exact table?_block hname ..
    rw [Project.ofDocument_eq, Project.ofDocument_eq, htables, htables, htables, htables, htables,
      array_block hisEntry]

end Texts

/-- An entry with an empty path, at any place of any manifest. There is the manifest without the text
of the entry. If nothing is read from the entry, both manifests give one project, and so they do if
the directory of the manifest has no name and no entry with the key comes before. Otherwise the
manifest with the entry gives what the other one gives, but with the directory of the manifest as
the path. -/
theorem Project.parse_emptyPath (S : PathSetting) {t : Text} {outer rest : List Statement}
    {before after : List (Text × Value)} (hrest : settingsAhead rest = [])
    (h : Written t (around outer (S.block (before ++ (S.key, .string []) :: after)) rest)) :
    (∃ left text right, t = left ++ (text ++ right) ∧ States text (.setting S.key (.string [])) ∧
      Written (left ++ right) (around outer (S.block (before ++ after)) rest)) ∧
    ∀ t', Written t' (around outer (S.block (before ++ after)) rest) →
      (S.Unread outer after → ∀ base, parse base t = parse base t') ∧
      (S.key ∉ before.map (·.1) → parse [] t = parse [] t') ∧
      (¬S.Unread outer after → ∀ base ≠ [], parse base t = (parse base t').map
        (S.put ((blocks outer).countP (Block.isElement S.title)) (Path.join base []))) := by
  refine ⟨?_, fun t' h' => ⟨parse_eq_of_unread hrest h h', fun hbefore => ?_,
    fun hunread base hbase => ?_⟩⟩
  · have hlines : around outer (S.block (before ++ (S.key, .string []) :: after)) rest =
        (outer ++ .header S.title S.isEntry :: settingsOf before) ++
          .setting S.key (.string []) :: (settingsOf after ++ rest) := by
      simp [around, PathSetting.block, settingsOf]
    rw [hlines] at h
    obtain ⟨left, text, right, ht, states, written, -⟩ := h.delete
    refine ⟨left, text, right, ht, states, ?_⟩
    simpa [around, PathSetting.block, settingsOf] using written
  · by_cases hunread : S.Unread outer after
    · exact parse_eq_of_unread hrest h h' hunread []
    obtain ⟨hafter, hheader⟩ := not_or.mp hunread
    have hempty := emptyAt_block before hafter
    have habsent := string?_block_eq_none hbefore hafter
    rw [parse_around hrest h, parse_around hrest h']
    cases hS : S.isEntry with
    | false =>
      have hfirst := not_and.mp hheader hS
      exact ofDocument_table_nil hS
        (table?_of_no_header hfirst hS S.title_ne_nil _)
        (table?_of_no_header hfirst hS S.title_ne_nil _) hempty habsent
        (fun name hname => table?_block hname ..) (fun name => array_block hS ..)
    | true =>
      exact ofDocument_entry_nil hS hempty habsent (array_of_entry hS ..) (array_of_entry hS ..)
        fun name => by rw [table?_of_other (.inl hS), table?_of_other (.inl hS)]
  · obtain ⟨hafter, hheader⟩ := not_or.mp hunread
    have hempty := emptyAt_block before hafter
    rw [parse_around hrest h, parse_around hrest h', ← placed_nil hbase]
    cases hS : S.isEntry with
    | false =>
      have hfirst := not_and.mp hheader hS
      exact ofDocument_table hS
        (table?_of_no_header hfirst hS S.title_ne_nil _)
        (table?_of_no_header hfirst hS S.title_ne_nil _) hempty
        (fun name hname => table?_block hname ..) (fun name => array_block hS ..) hbase _
    | true =>
      rw [← length_array]
      exact ofDocument_entry hS hempty (array_of_entry hS ..) (array_of_entry hS ..)
        fun name => by rw [table?_of_other (.inl hS), table?_of_other (.inl hS)]

/-- A manifest that asks for no stripping tool. -/
def noStripperText : Text := utf8 "[tools]\nstripper=\"\"\n"

theorem noStripper_written : Written noStripperText (around []
    (PathSetting.stripper.block ([] ++ (PathSetting.stripper.key, .string []) :: [])) []) := by
  have htools : States (utf8 "[tools]") (.header (utf8 "tools") false) :=
    @States.header (utf8 "tools") [] [] false (by decide +kernel) .nil .nil
  have hstripper : States (utf8 "stripper=\"\"") (.setting (utf8 "stripper") (.string [])) :=
    @States.setting (utf8 "stripper") [] [] _ _ (by decide +kernel) .nil .nil (.string .nil)
  have hlines : Filler [0x0A] := .blank (by decide) .nil
  have hover {more : Text} : LineOver (0x0A :: more) := fun b hb => .inl (Option.some.inj hb).symm
  exact .cons .nil htools hover (.cons hlines hstripper hover (.filler hlines))

/-- In the directory `/p` the stripping tool is the directory. -/
theorem Project.parse_emptyPath_of_noStripper :
    ∃ t', parse (utf8 "/p") noStripperText =
        (parse (utf8 "/p") t').map (PathSetting.stripper.put 0 (utf8 "/p/")) ∧
      (parse (utf8 "/p") t').toOption.map (·.tools.stripper) = some [] := by
  have htools : States (utf8 "[tools]") (.header (utf8 "tools") false) :=
    @States.header (utf8 "tools") [] [] false (by decide +kernel) .nil .nil
  have hlines : Filler [0x0A] := .blank (by decide) .nil
  have hover {more : Text} : LineOver (0x0A :: more) := fun b hb => .inl (Option.some.inj hb).symm
  have hdeleted : Written (utf8 "[tools]\n") (around [] (PathSetting.stripper.block []) []) :=
    .cons .nil htools hover (.filler hlines)
  obtain ⟨-, hresult⟩ := parse_emptyPath .stripper rfl noStripper_written
  obtain ⟨-, -, hput⟩ := hresult _ hdeleted
  have hread : ¬PathSetting.stripper.Unread [] [] := by
    rintro (h | ⟨-, h⟩) <;> cases h
  exact ⟨_, hput hread (utf8 "/p") (by decide), by decide +kernel⟩

end NativeBuild
