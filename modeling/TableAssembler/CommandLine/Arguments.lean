import TableAssembler.Text.Digit
import TableAssembler.Text.Quoted

/-!
# Arguments

The command line takes three flags and the path of one program.  A flag is a letter after a dash, so
that several share one, or a word after two dashes, of which a beginning is enough if no other flag
begins so.  After two dashes alone no argument is a flag.

* `Flag`, `Options`      what can be said on the command line;
* `Word`, `Word.ofText`  an argument, taken for what it looks like;
* `ArgumentError`        why the arguments make no sense, with `ArgumentError.message`;
* `Request.ofArguments`  what some arguments ask for.
-/

namespace TableAssembler

/-! ## flags -/

inductive Flag where
  | help
  | check
  | verbose
deriving DecidableEq, Repr, Inhabited

namespace Flag

def all : List Flag := [.help, .check, .verbose]

def letter : Flag → Char
  | .help => 'h'
  | .check => 'c'
  | .verbose => 'v'

def word : Flag → List Char
  | .help => ['h', 'e', 'l', 'p']
  | .check => ['c', 'h', 'e', 'c', 'k']
  | .verbose => ['v', 'e', 'r', 'b', 'o', 's', 'e']

def shortName (f : Flag) : String := String.ofList ['-', f.letter]

def longName (f : Flag) : String := String.ofList ('-' :: '-' :: f.word)

def ofLetter? (c : Char) : Option Flag := all.find? fun f => f.letter = c

/-- The flags whose word begins so. -/
def beginningWith (s : List Char) : List Flag := all.filter fun f => s.isPrefixOf f.word

/-- The flags that a word stands for: its own flag, or else those that begin with it. -/
def ofWord (s : List Char) : List Flag :=
  match all.find? fun f => f.word = s with
  | some f => [f]
  | none => beginningWith s

end Flag

/-! ## errors -/

/-- Why some arguments make no sense. -/
inductive ArgumentError where
  | ambiguous (text : String) (flags : List Flag)
  | unwanted (flag : Flag) (value : String)
  | unrecognized (texts : List String)
deriving DecidableEq, Repr

def ArgumentError.message : ArgumentError → String
  | .ambiguous text flags =>
    "ambiguous option: " ++ text ++ " could match "
      ++ String.intercalate ", " (flags.map Flag.longName)
  | .unwanted flag value =>
    "argument " ++ flag.shortName ++ "/" ++ flag.longName ++ ": ignored explicit argument "
      ++ Text.quoted value
  | .unrecognized texts => "unrecognized arguments: " ++ String.intercalate " " texts

/-! ## words -/

/-- An argument, taken for what it looks like.

* `plain`      no flag at all;
* `separator`  two dashes alone, after which nothing is a flag;
* `flag`       a flag by its letter or its word;
* `letters`    the letter of a flag and more letters, not none;
* `value`      a flag with a value, which no flag takes;
* `unknown`    what looks like a flag but is none. -/
inductive Word where
  | plain (text : String)
  | separator
  | flag (f : Flag)
  | letters (f : Flag) (more : List Char)
  | value (f : Flag) (text : List Char)
  | unknown (text : String)
deriving DecidableEq, Repr, Inhabited

namespace Word

/-- The text before the first equals sign, and the text after it if there is one. -/
def splitValue (s : List Char) : List Char × Option (List Char) :=
  (s.takeWhile (· ≠ '='), (s.dropWhile (· ≠ '=')).tail?)

/-- Whether a text is an unsigned decimal number, with digits on the right of a point if there is
one.  A line break at its end does not matter. -/
def isNumber (s : List Char) : Bool :=
  let t := if s.getLast? = some '\n' then s.dropLast else s
  let rest := t.dropWhile Text.isDecimalDigit
  match rest with
  | [] => !t.isEmpty
  | c :: digits => c = '.' && !digits.isEmpty && digits.all Text.isDecimalDigit

/-- A text that begins with a dash and is no flag: a negative number and a text with a blank are
plain. -/
def other (s : List Char) : Word :=
  let text := String.ofList ('-' :: s)
  if isNumber s || s.contains ' ' then .plain text else .unknown text

/-- The word of a text after two dashes. -/
def ofLong (s : List Char) : Except ArgumentError Word :=
  let parts := splitValue s
  match Flag.ofWord parts.1 with
  | [] => .ok (other ('-' :: s))
  | [f] =>
    match parts.2 with
    | none => .ok (.flag f)
    | some given => .ok (.value f given)
  | flags => .error (.ambiguous (String.ofList ('-' :: '-' :: s)) flags)

/-- The word of a text after one dash.  An equals sign may stand between the first letter and the
others; alone it gives the flag an empty value. -/
def ofShort (c : Char) (s : List Char) : Word :=
  match Flag.ofLetter? c with
  | none => other (c :: s)
  | some f =>
    match s with
    | [] => .flag f
    | ['='] => .value f []
    | '=' :: more => .letters f more
    | more => .letters f more

def ofText (text : String) : Except ArgumentError Word :=
  match text.toList with
  | ['-', '-'] => .ok .separator
  | '-' :: '-' :: s => ofLong s
  | '-' :: c :: s => .ok (ofShort c s)
  | _ => .ok (.plain text)

/-- The words of some texts; after a separator they are all plain. -/
def ofTexts : List String → Except ArgumentError (List Word)
  | [] => .ok []
  | text :: texts => do
    let word ← ofText text
    if word = .separator then return .separator :: texts.map plain
    return word :: (← ofTexts texts)

end Word

/-! ## requests -/

/-- What the flags and the program of a command line say. -/
structure Options where
  program : Option String := none
  check : Bool := false
  verbose : Nat := 0
deriving DecidableEq, Repr, Inhabited

/-- What a command line asks for. -/
inductive Request where
  | help
  | run (options : Options)
deriving DecidableEq, Repr, Inhabited

/-- The flags of a letter and more letters.  From the first character on that is no flag, all is a
value for the flag before it, which takes none. -/
def Flag.spell (f : Flag) : List Char → Except ArgumentError (List Flag)
  | [] => .ok [f]
  | c :: s =>
    match Flag.ofLetter? c with
    | some g => (f :: ·) <$> g.spell s
    | none => .error (.unwanted f (String.ofList (c :: s)))

/-- What is known of a command line so far: the options, whether a program may still come, and the
arguments that nothing is known about. -/
structure Arguments where
  options : Options := {}
  isOpen : Bool := true
  extras : List String := []
deriving DecidableEq, Repr, Inhabited

namespace Arguments

/-- One more flag, unless it asks for help. -/
def flag (a : Arguments) : Flag → Option Arguments
  | .help => none
  | .check => some { a with options := { a.options with check := true } }
  | .verbose => some { a with options := { a.options with verbose := a.options.verbose + 1 } }

/-- Several flags, unless one asks for help. -/
def flags (a : Arguments) (fs : List Flag) : Option Arguments := fs.foldlM flag a

def extra (a : Arguments) (texts : List String) : Arguments :=
  { a with extras := a.extras ++ texts }

/-- A plain argument: the program, if there is none yet. -/
def plain (a : Arguments) (text : String) : Arguments :=
  if a.isOpen then { a with options := { a.options with program := some text }, isOpen := false }
  else a.extra [text]

/-- A separator, which says nothing while a program may still come. -/
def separator (a : Arguments) : Arguments := if a.isOpen then a else a.extra ["--"]

/-- What all words ask for.  A separator right after the program belongs to it. -/
def read (a : Arguments) : List Word → Except ArgumentError Request
  | [] => if a.extras.isEmpty then .ok (.run a.options) else .error (.unrecognized a.extras)
  | .plain text :: .separator :: words =>
    if a.isOpen then (a.plain text).read words else (a.extra [text, "--"]).read words
  | .plain text :: words => (a.plain text).read words
  | .unknown text :: words => (a.extra [text]).read words
  | .separator :: words => a.separator.read words
  | .value f given :: _ => .error (.unwanted f (String.ofList given))
  | .flag f :: words =>
    match a.flag f with
    | none => .ok .help
    | some a => a.read words
  | .letters f more :: words =>
    match f.spell more with
    | .error e => .error e
    | .ok fs =>
      match a.flags fs with
      | none => .ok .help
      | some a => a.read words

end Arguments

def Request.ofArguments (texts : List String) : Except ArgumentError Request := do
  Arguments.read {} (← Word.ofTexts texts)

end TableAssembler
