import Clausal.Text.Terminal
import Clausal.Tree.Kind

/-! # The journal

What the compiler does on the way is noted as a list of events. The command line shows them when it
is asked to be talkative; nothing else depends on them. -/

namespace Clausal

/-- How talkative the command line must be for an event to be shown. -/
inductive Verbosity where
  | warn
  | info
  | debug
  | trace
deriving DecidableEq, Repr

namespace Verbosity

/-- The rank of a verbosity; higher ones include lower ones. -/
def rank : Verbosity → Nat
  | warn => 0
  | info => 1
  | debug => 2
  | trace => 3

def ofCount : Nat → Verbosity
  | 0 => warn
  | 1 => info
  | 2 => debug
  | _ => trace

def text : Verbosity → String
  | warn => " WARN"
  | info => " INFO"
  | debug => "DEBUG"
  | trace => "TRACE"

end Verbosity

/-- Something worth noting that the compiler did. -/
inductive Event where
  | parsed (file name : String) (functions : Nat)
  | treeBuilt (name : String) (elements : Nat)
  | passStarted (pass : String)
  | passFinished (pass : String) (diagnostics : Nat)
  | replaced (old replacement owner : ElementId) (ownerKind : String) (position : Nat)
  | alternativesBuilt (construct : String) (id fallback : ElementId)
  | matchExpanded (id caseId : ElementId)
  | matchDetached (id statement : ElementId)
  | caseExpanded (id conditional : ElementId)
  | capturesFound (function : ElementId) (names : List String)
  | generated (functions : Nat) (name : String)
  | compiled (file : String) (diagnostics : Nat)
  | optionsLoaded (path : String)
deriving DecidableEq, Repr

namespace Event

/-- How talkative the command line must be to show an event. -/
def verbosity : Event → Verbosity
  | matchDetached .. => .warn
  | optionsLoaded .. => .info
  | parsed .. | treeBuilt .. | passStarted .. | passFinished .. | generated .. | compiled .. => .debug
  | replaced .. | alternativesBuilt .. | matchExpanded .. | caseExpanded .. | capturesFound .. => .trace

def target : Event → String
  | parsed .. => "trellis_core::syntax"
  | treeBuilt .. => "trellis_core::ir::lower"
  | passStarted .. | passFinished .. => "trellis_core::passes"
  | replaced .. => "trellis_core::ir::tree"
  | alternativesBuilt .. => "trellis_core::ir::case"
  | matchExpanded .. | matchDetached .. | caseExpanded .. => "trellis_core::passes::desugar"
  | capturesFound .. => "trellis_core::passes::closure"
  | generated .. => "trellis_core::codegen"
  | compiled .. => "trellis_core"
  | optionsLoaded .. => "trellis"

def message : Event → String
  | parsed file name functions => s!"parsed {file} into module '{name}' with {functions} function(s)"
  | treeBuilt name elements => s!"built IR tree <tree> for module '{name}' ({elements} elements)"
  | passStarted pass => s!"running pass '{pass}' on tree <tree>"
  | passFinished pass diagnostics => s!"pass '{pass}' finished with {diagnostics} diagnostic(s)"
  | replaced old replacement owner ownerKind position =>
    s!"replaced #{old} with #{replacement} in {ownerKind} #{owner} (slot {position})"
  | alternativesBuilt construct id fallback => s!"built {construct} #{id} with fallback #{fallback}"
  | matchExpanded id caseId => s!"expanded match #{id} into case #{caseId}"
  | matchDetached id statement =>
    s!"match #{id} sits in detached statement #{statement}; left unexpanded"
  | caseExpanded id conditional => s!"expanded case #{id} into conditional #{conditional}"
  | capturesFound function names =>
    s!"closure #{function} captures [" ++ ", ".intercalate names ++ "]"
  | generated functions name => s!"generated {functions} function(s) for module '{name}'"
  | compiled file diagnostics => s!"compiled {file} with {diagnostics} diagnostic(s)"
  | optionsLoaded path => s!"loading compile options from {path}"

def line (e : Event) : String :=
  s!"{e.verbosity.text} {e.target}: {Text.harmless e.message}\n"

end Event

def journalText (verbosity : Verbosity) (journal : List Event) : String :=
  String.join ((journal.filter (·.verbosity.rank ≤ verbosity.rank)).map Event.line)

end Clausal
