import CodeGraph.Cache.Kind

/-!
# Arguments of the command line

`parse` reads the arguments of a call. A call names a command, and some commands have commands of their
own; each level has its options and positional arguments. Four options are understood at every level,
and of two levels the inner one counts. The arguments are read in order, and the first thing that
cannot be, or that asks for help or for the version, ends the reading.
-/

namespace CodeGraph.CommandLine

/-- Why there is no command to run. -/
inductive Halt where
  /-- The arguments make no sense. -/
  | usage
  | help
  | version
deriving DecidableEq, Repr

/-- Which values an argument takes. -/
inductive ValueKind where
  | text
  /-- A path, which is not empty. -/
  | path
  | count
  | port
  | kind
deriving DecidableEq, Repr

/-- A natural number, with a plus sign allowed. -/
def natural? (text : String) : Option Nat :=
  let digits := match text.toList with
    | '+' :: ds => ds
    | ds => ds
  if digits.isEmpty || !digits.all Char.isDigit then none
  else some (digits.foldl (fun n d => 10 * n + (d.toNat - 48)) 0)

/-- A natural number below a bound. -/
def naturalBelow? (bound : Nat) (text : String) : Option Nat :=
  (natural? text).filter (· < bound)

/-- A port is read as an integer, so zero may have a minus sign. -/
def port? (text : String) : Option Nat :=
  match text.toList with
  | '-' :: digits =>
    if !digits.isEmpty && digits.all (· == '0') then some 0 else none
  | _ => naturalBelow? UInt16.size text

/-- Whether a text is a value of a kind. -/
def ValueKind.accepts : ValueKind → String → Bool
  | text, _ => true
  | path, s => !s.isEmpty
  | count, s => (naturalBelow? UInt64.size s).isSome
  | port, s => (port? s).isSome
  | kind, s => (ResultKind.ofName? s).isSome

/-- An option: its long name, its letter, and the kind of its value where it has one. -/
structure OptionSpec where
  name : String
  letter : Option Char
  value : Option ValueKind
deriving DecidableEq, Repr

/-- The options of every level. -/
def globalOptions : List OptionSpec :=
  [⟨"verbose", some 'v', none⟩, ⟨"config", none, some .path⟩, ⟨"no-cache", none, none⟩,
    ⟨"compact", none, none⟩, ⟨"help", some 'h', none⟩]

/-- The options of commands that read a source. -/
def sourceOptions : List OptionSpec :=
  [⟨"language", some 'l', some .text⟩, ⟨"filename", none, some .text⟩]

/-- Where the reader of the arguments stands: behind which commands. -/
inductive Level where
  | root
  | parse | graph | diff | locate | analyze | languages | serve | init
  | cache | cacheStats | cacheClear | cacheHash | cacheShow | cacheNode
  /-- The command for help, and the level that help is asked for. -/
  | help (on : Level)
deriving DecidableEq, Repr

namespace Level

/-- The commands of a level. -/
def commands : Level → List (String × Level)
  | root =>
    [("parse", parse), ("graph", graph), ("diff", diff), ("locate", locate), ("analyze", analyze),
      ("languages", languages), ("serve", serve), ("init", init), ("cache", cache),
      ("help", help root)]
  | cache =>
    [("stats", cacheStats), ("clear", cacheClear), ("hash", cacheHash), ("show", cacheShow),
      ("node", cacheNode), ("help", help cache)]
  | _ => []

/-- The options of a level. -/
def options (l : Level) : List OptionSpec :=
  globalOptions ++
    match l with
    | root => [⟨"version", some 'V', none⟩]
    | parse => sourceOptions ++ [⟨"old", none, some .path⟩]
    | graph => sourceOptions ++ [⟨"stats", none, none⟩]
    | diff => [⟨"language", some 'l', some .text⟩]
    | locate => sourceOptions ++ [⟨"line", none, some .count⟩, ⟨"column", none, some .count⟩]
    | analyze => sourceOptions
    | serve => [⟨"port", some 'p', some .port⟩]
    | init => [⟨"force", some 'f', none⟩]
    | _ => []

/-- The kinds of the positional arguments of a level. -/
def positionals : Level → List ValueKind
  | parse | graph | locate | analyze | cacheHash => [.path]
  | diff => [.path, .path]
  | cacheShow => [.kind, .text]
  | cacheNode => [.text, .text]
  | _ => []

/-- How many positional arguments a level must have. -/
def required : Level → Nat
  | diff | cacheShow | cacheNode => 2
  | _ => 0

/-- The options that a level must have. -/
def requiredOptions : Level → List String
  | locate => ["line", "column"]
  | _ => []

end Level

/-- What was read of the arguments. -/
structure Given where
  level : Level
  /-- The options of the outer levels, inner levels first. -/
  outer : List (String × String)
  /-- The options of the level, the newest first; an option without a value has an empty one. -/
  options : List (String × String)
  positionals : List String

namespace Given

/-- Take up an option with its value. -/
def addOption (g : Given) (o : OptionSpec) (value : String) : Except Halt Given :=
  if o.name = "help" then .error .help
  else if o.name = "version" then .error .version
  else if g.options.any (·.1 == o.name) then .error .usage
  else if o.value.any (!·.accepts value) then .error .usage
  else .ok { g with options := (o.name, value) :: g.options }

/-- Take up a positional argument. -/
def addPositional (g : Given) (value : String) : Except Halt Given :=
  match g.level.positionals[g.positionals.length]? with
  | none => .error .usage
  | some k =>
    if k.accepts value then .ok { g with positionals := g.positionals ++ [value] }
    else .error .usage

/-- Go into a command. -/
def enter (g : Given) (level : Level) : Given := ⟨level, g.options ++ g.outer, [], []⟩

/-- The value of an option. -/
def option? (g : Given) (name : String) : Option String :=
  ((g.options ++ g.outer).find? (·.1 == name)).map (·.2)

/-- Whether an option is given. -/
def has (g : Given) (name : String) : Bool := (g.option? name).isSome

end Given

/-- What an argument that starts with a dash asks for. -/
inductive Dashed where
  | usage (halt : Halt)
  | done (g : Given)
  /-- The option needs the next argument as its value. -/
  | pending (g : Given) (o : OptionSpec)

/-- Read an option by its long name. -/
def readLong (g : Given) (body : List Char) : Dashed :=
  let name := String.ofList (body.takeWhile (· != '='))
  let attached := match body.dropWhile (· != '=') with
    | [] => none
    | _ :: value => some (String.ofList value)
  match g.level.options.find? (·.name == name), attached with
  | none, _ => .usage .usage
  | some o, none =>
    if o.value.isSome then .pending g o
    else match g.addOption o "" with
      | .error h => .usage h
      | .ok g => .done g
  | some o, some value =>
    if o.value.isNone then .usage .usage
    else match g.addOption o value with
      | .error h => .usage h
      | .ok g => .done g

/-- Read options by their letters. What follows the letter of an option with a value is its value,
an equals sign in front apart. -/
def readLetters (g : Given) : List Char → Dashed
  | [] => .done g
  | c :: rest =>
    match g.level.options.find? (·.letter == some c) with
    | none => .usage .usage
    | some o =>
      if o.value.isSome then
        match rest with
        | [] => .pending g o
        | value =>
          let value := match value with
            | '=' :: value => value
            | value => value
          match g.addOption o (String.ofList value) with
          | .error h => .usage h
          | .ok g => .done g
      else
        match g.addOption o "" with
        | .error h => .usage h
        | .ok g => readLetters g rest

/-- Whether an argument stands for options. -/
def isDashed (arg : String) : Bool :=
  match arg.toList with
  | '-' :: _ :: _ => true
  | _ => false

/-- Read an argument that stands for options. -/
def readDashed (g : Given) (arg : String) : Dashed :=
  match arg.toList with
  | '-' :: '-' :: body => readLong g body
  | '-' :: letters => readLetters g letters
  | _ => .usage .usage

/-- Check that what has to be there is there. -/
def complete (g : Given) : Except Halt Given :=
  if !g.level.commands.isEmpty then .error .usage
  else if g.positionals.length < g.level.required then .error .usage
  else if g.level.requiredOptions.all g.has then .ok g
  else .error .usage

/-- Read the names of commands that help is asked for. -/
def readHelp (on : Level) : List String → Halt
  | [] => .help
  | name :: rest =>
    match on.commands.find? (·.1 == name) with
    | some (_, .help _) => if rest.isEmpty then .help else .usage
    | some (_, level) => readHelp level rest
    | none => .usage

/-- Read arguments one after the other; behind `--` there are no options any more. -/
def readArguments (plain : Bool) (g : Given) : List String → Except Halt Given
  | [] => complete g
  | arg :: rest =>
    if plain then (g.addPositional arg).bind fun g => readArguments true g rest
    else
      match g.level.commands.find? (·.1 == arg) with
      | some (_, .help on) => .error (readHelp on rest)
      | some (_, level) => readArguments false (g.enter level) rest
      | none =>
        if arg = "--" then readArguments true g rest
        else if isDashed arg then
          match readDashed g arg with
          | .usage h => .error h
          | .done g => readArguments false g rest
          | .pending g o =>
            match rest with
            | [] => .error .usage
            | value :: rest =>
              if isDashed value then .error .usage
              else (g.addOption o value).bind fun g => readArguments false g rest
        else (g.addPositional arg).bind fun g => readArguments false g rest

/-! ### Calls -/

/-- A source on the command line. -/
structure SourceArguments where
  /-- The file, or the standard input. -/
  input : Option String
  language : Option String
  fileName : Option String
deriving DecidableEq, Repr

/-- What to do with the stored results. -/
inductive CacheCommand where
  | stats | clear
  | hash (input : Option String)
  | result (kind : ResultKind) (digest : String)
  | node (digest id : String)
deriving DecidableEq, Repr

/-- A command. -/
inductive Command where
  | parse (source : SourceArguments) (old : Option String)
  | graph (source : SourceArguments) (stats : Bool)
  | diff (old new : String) (language : Option String)
  | locate (source : SourceArguments) (line column : Nat)
  | analyze (source : SourceArguments)
  | languages
  | serve (port : Option Nat)
  | init (force : Bool)
  | cache (command : CacheCommand)
deriving DecidableEq, Repr

/-- A call of the program. -/
structure Call where
  command : Command
  /-- The file of the settings, where it is not the usual one. -/
  config : Option String
  noCache : Bool
  compact : Bool
deriving DecidableEq, Repr

namespace Given

/-- The source that is given. -/
def source (g : Given) : SourceArguments :=
  ⟨g.positionals.head?, g.option? "language", g.option? "filename"⟩

/-- The number that an option has as its value. -/
def number? (g : Given) (name : String) : Option Nat := (g.option? name).bind natural?

/-- The port that is given. -/
def givenPort? (g : Given) : Option Nat := (g.option? "port").bind port?

/-- The command that is given. -/
def command? (g : Given) : Option Command :=
  match g.level, g.positionals with
  | .parse, _ => some (.parse g.source (g.option? "old"))
  | .graph, _ => some (.graph g.source (g.has "stats"))
  | .diff, [old, new] => some (.diff old new (g.option? "language"))
  | .locate, _ =>
    match g.number? "line", g.number? "column" with
    | some line, some column => some (.locate g.source line column)
    | _, _ => none
  | .analyze, _ => some (.analyze g.source)
  | .languages, _ => some .languages
  | .serve, _ => some (.serve g.givenPort?)
  | .init, _ => some (.init (g.has "force"))
  | .cacheStats, _ => some (.cache .stats)
  | .cacheClear, _ => some (.cache .clear)
  | .cacheHash, args => some (.cache (.hash args.head?))
  | .cacheShow, [kind, digest] => (ResultKind.ofName? kind).map fun k => .cache (.result k digest)
  | .cacheNode, [digest, id] => some (.cache (.node digest id))
  | _, _ => none

/-- The call that is given. -/
def call? (g : Given) : Option Call :=
  g.command?.map fun command => ⟨command, g.option? "config", g.has "no-cache", g.has "compact"⟩

end Given

/-- Read the arguments of a call. -/
def parse (args : List String) : Except Halt Call :=
  match readArguments false ⟨.root, [], [], []⟩ args with
  | .error h => .error h
  | .ok g =>
    match g.call? with
    | some call => .ok call
    | none => .error .usage

end CodeGraph.CommandLine
