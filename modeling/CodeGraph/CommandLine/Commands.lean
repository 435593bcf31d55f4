import CodeGraph.CommandLine.Arguments
import CodeGraph.CommandLine.StoreInUse
import CodeGraph.Request.Analyzer
import CodeGraph.Terminal.Table

/-!
# The commands

`execute` runs a call on a host. Results go to the standard output as JSON, and all that is said about
them to the error output.
-/

namespace CodeGraph.CommandLine

open Job

variable {m : Type → Type} [Monad m] (h : Host m)

/-! ### Sources -/

/-- Whether a path stands for the standard input. -/
def isInput (path : String) : Bool := components path == ["-"]

/-- Read a source from a file, or from the standard input. -/
def readSource (path : Option String) : Job m String :=
  match path with
  | none => within .input do text (← host h.readInput)
  | some path =>
    if isInput path then within .input do text (← host h.readInput)
    else within (.source path) do text (← access (h.readFile path))

/-- The file name of a source, for its extension. -/
def SourceArguments.name (s : SourceArguments) : Option String :=
  s.fileName.orElse fun _ => s.input.filter (!isInput ·)

/-- What the arguments say of the language. -/
def SourceArguments.hint (s : SourceArguments) : SourceHint := ⟨s.language, s.name⟩

/-! ### Settings and stored results -/

/-- The settings of a file, or the defaults where it is missing. -/
def loadSettings (path : String) : Job m Settings := do
  if ← host (h.isThere path) then
    let content ← text (← access (h.readFile path))
    let settings ← ofExcept .settings (Settings.load (some content))
    return settings.getD {}
  else return {}

/-- Carry out a request, with a store or without. -/
def carryOut {α : Type} (store : Option OpenStore) (plan : Plan α) : Job m α := do
  let now ← host h.now
  let (answer, after) := plan.runAt now (store.map (·.store))
  match store, after with
  | some s, some after =>
    if after.count ≠ s.store.count then discard (({ s with store := after } : OpenStore).save h)
  | _, _ => pure ()
  ofExcept .request answer

/-- Make the directory that a file lies in. -/
def ensureDirectory (path : String) : Job m Unit :=
  match parent? path with
  | none => return ()
  | some dir => do
    if ← host (h.isThere dir) then return ()
    else access (h.makeDirectories dir)

/-- Where the results are stored. -/
def storePath (settings : Settings) : Job m String :=
  match settings.cache with
  | some path => return path
  | none => do return defaultCachePath (← host h.currentDirectory)

/-- The analyzer of some settings. -/
def analyzerOf (parser : Parser) (settings : Settings) : Job m Analyzer :=
  match settings.defaultLanguage with
  | none => return { parser, limits := settings.limits }
  | some tag =>
    match Language.ofTag? tag with
    | some l => return { parser, limits := settings.limits, defaultLanguage := some l }
    | none => throw (.badDefaultLanguage tag)

/-- The analyzer of some settings, and the store where there is one to use. A store that cannot be
opened is done without. -/
def prepare (parser : Parser) (settings : Settings) (noCache : Bool) :
    Job m (Analyzer × Option OpenStore) := do
  let analyzer ← analyzerOf parser settings
  if noCache ∨ settings.cache = none then return (analyzer, none)
  let path ← storePath h settings
  ensureDirectory h path
  let opened ← openStore h path
  return (analyzer, opened.toOption)

/-- The stored results, where there are any. -/
def findStore (settings : Settings) : Job m (Option (String × OpenStore)) := do
  let path ← storePath h settings
  if ← host (h.isThere path) then
    let store ← ofExcept (fun cause => .request (.storage cause)) (← openStore h path)
    return some (path, store)
  else
    tellLine ("ℹ️ No cache at: " ++ path)
    return none

/-! ### Messages -/

/-- Print a value as JSON. -/
def emit (compact : Bool) (j : Json) : Job m Unit :=
  printLine (if compact then j.compact else j.pretty)

/-- Tell that something is not as it might be expected. -/
def warn (message : String) : Job m Unit := tellLine ("⚠️ " ++ message)

/-- Tell that something went well. -/
def success (message : String) : Job m Unit := tellLine ("✅ " ++ message)

/-- Show a table, where it has rows. -/
def showTable (rows : List Terminal.TableRow) : Job m Unit :=
  if rows.isEmpty then return () else tellLine (Terminal.table rows)

/-- Tell the sizes of a graph. -/
def tellStats (g : SemanticGraph) : Job m Unit := do
  tellLine ""
  tellLine ("━📊 " ++ g.language.name ++ " graph━")
  tellLine ("  Nodes: " ++ g.stats.nodes.repr)
  tellLine ("  Edges: " ++ g.stats.edges.repr)
  for (kind, count) in g.stats.edgesByKind do
    tellLine ("    " ++ kind.name ++ " " ++ count.repr)

/-! ### Commands -/

/-- Parse a source, upon an older version of it where one is given. -/
def runParse (prepared : Analyzer × Option OpenStore) (source : SourceArguments)
    (old : Option String) : Job m TreeResult := do
  let code ← readSource h source.input
  match old with
  | none => carryOut h prepared.2 (prepared.1.parse code source.hint)
  | some path =>
    let oldCode ← readSource h (some path)
    ofExcept .request (prepared.1.parseIncremental code (some oldCode) source.hint)

/-- Build a graph, and tell about it. -/
def runGraph (prepared : Analyzer × Option OpenStore) (source : SourceArguments)
    (stats : Bool) : Job m SemanticGraph := do
  let code ← readSource h source.input
  let graph ← carryOut h prepared.2 (prepared.1.graph code source.hint)
  if stats then tellStats graph
  if !prepared.1.hasSemantics graph.language then
    warn ("No semantic rules for " ++ graph.language.name ++ "; only contains edges emitted")
  return graph

/-- Compare two sources, and tell whether they differ. -/
def runDiff (prepared : Analyzer × Option OpenStore) (old new : String)
    (language : Option String) : Job m TreeDiff := do
  let oldCode ← readSource h (some old)
  let newCode ← readSource h (some new)
  let hint := (⟨some new, language, none⟩ : SourceArguments).hint
  let diff ← ofExcept .request (prepared.1.diff oldCode newCode hint)
  if diff.isEmpty then success "No syntactic changes"
  else
    tellLine ("📝 Changed: " ++ diff.changedRanges.length.repr ++ " ranges, " ++
      diff.changedNodes.length.repr ++ " nodes")
  return diff

/-- Look a position up, and tell what is there. -/
def runLocate (prepared : Analyzer × Option OpenStore) (source : SourceArguments)
    (p : Point) : Job m LocateResult := do
  let code ← readSource h source.input
  let result ← carryOut h prepared.2 (prepared.1.locate code p source.hint)
  match result.node? with
  | some node => tellLine ("🔎 Found: " ++ node.kind ++ " " ++ node.id.text)
  | none => warn ("No node at " ++ p.line.repr ++ ":" ++ p.column.repr)
  return result

/-- Sum a source up. -/
def runAnalyze (prepared : Analyzer × Option OpenStore) (source : SourceArguments) :
    Job m Outline := do
  let code ← readSource h source.input
  carryOut h prepared.2 (prepared.1.outlineOf code source.hint)

/-- List the languages. -/
def runLanguages (analyzer : Analyzer) : Job m (List LanguageSupport) := do
  let support := analyzer.supportedLanguages
  showTable (support.map fun s =>
    ⟨s.language.name, if s.semantic then "semantic" else "structural"⟩)
  return support

/-- Write the file of the settings, and have the stored results ignored by version control. -/
def runInit (path : String) (force : Bool) : Job m Unit := do
  let settings : Settings := { cache := some (defaultCachePath "") }
  let written ← settings.write (host (h.isThere path))
    (fun bytes => access (h.writeFile path bytes)) path force
  ofExcept .settings written
  let dir ← host h.currentDirectory
  ensureDirectory h (defaultCachePath dir)
  let ignorePath := joinPath dir ignoreFileName
  let ignored ←
    if ← host (h.isThere ignorePath) then
      some <$> do text (← access (h.readFile ignorePath))
    else pure none
  let ignoring := ensureIgnored ignored
  if ignored ≠ some ignoring then access (h.writeFile ignorePath ignoring.toUTF8)
  tellLine ("⚙️ Wrote: " ++ path)
  tellLine ("🗄️ Cache: " ++ defaultCachePath dir)

/-- Show how many results are stored. -/
def runStats (settings : Settings) : Job m Unit := do
  match ← findStore h settings with
  | none => return ()
  | some (path, s) =>
    let stats := s.store.stats
    tellLine ("🗄️ Cache: " ++ path)
    showTable [⟨"ASTs", stats.trees.repr⟩, ⟨"Graphs", stats.graphs.repr⟩,
      ⟨"Analyses", stats.outlines.repr⟩]

/-- Remove all stored results. -/
def runClear (settings : Settings) : Job m Unit := do
  match ← findStore h settings with
  | none => return ()
  | some (_, s) =>
    let (store, removed) := s.store.clear
    ofExcept (fun cause => .request (.storage cause))
      (← ({ s with store } : OpenStore).save h)
    success ("Removed " ++ removed.repr ++ " cached results")

/-- Work on the stored results. -/
def runCache (settings : Settings) (compact : Bool) : CacheCommand → Job m Unit
  | .stats => runStats h settings
  | .clear => runClear h settings
  | .hash input => do printLine (Blake3.textDigest (← readSource h input))
  | .result kind digest => do
    match ← findStore h settings with
    | none => return ()
    | some (_, s) => emit compact (← carryOut h (some s) (storedResult digest kind))
  | .node digest id => do
    match ← findStore h settings with
    | none => return ()
    | some (_, s) =>
      let found ← carryOut h (some s) (storedNode digest ⟨id⟩)
      if found.node?.isNone then warn ("No node " ++ id ++ " in " ++ digest)
      emit compact (NodeLookup.codec.encode found)

/-- Run a command with some settings. -/
def runCommand (parser : Parser) (call : Call) (configPath : String) (settings : Settings) :
    Job m Unit := do
  let prepared := prepare h parser settings call.noCache
  let emit := emit call.compact
  match call.command with
  | .parse source old => emit (TreeResult.codec.encode (← runParse h (← prepared) source old))
  | .graph source stats =>
    emit (SemanticGraph.codec.encode (← runGraph h (← prepared) source stats))
  | .diff old new language =>
    emit (TreeDiff.codec.encode (← runDiff h (← prepared) old new language))
  | .locate source line column =>
    emit (LocateResult.codec.encode (← runLocate h (← prepared) source ⟨line, column⟩))
  | .analyze source => emit (Outline.codec.encode (← runAnalyze h (← prepared) source))
  | .languages =>
    let support ← runLanguages (← analyzerOf parser settings)
    emit (.array (support.map LanguageSupport.toJson))
  | .serve port =>
    discard prepared
    tellLine "🚀 asgraph server"
    access (h.serve (port.getD settings.server.port.toNat))
  | .init force => runInit h configPath force
  | .cache command => runCache h settings call.compact command

/-- How a call ended. -/
structure Ending where
  code : Nat
  output : Output
deriving DecidableEq, Repr

/-- Run a call. -/
def execute (parser : Parser) (args : List String) : m Ending :=
  match parse args with
  | .error .usage => return ⟨2, ⟨"", ""⟩⟩
  | .error .help => return ⟨0, ⟨"", ""⟩⟩
  | .error .version => return ⟨0, ⟨"asgraph 0.1.0\n", ""⟩⟩
  | .ok call => do
    let configPath := call.config.getD Settings.fileName
    let action : Job m Unit := do
      runCommand h parser call configPath (← loadSettings h configPath)
    match ← action.run.run ⟨"", ""⟩ with
    | (.ok (), output) => return ⟨0, output⟩
    | (.error failure, output) =>
      return ⟨1, { output with err := output.err ++ "❌ " ++ failure.message ++ "\n" }⟩

end CodeGraph.CommandLine
