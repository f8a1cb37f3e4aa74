import Clausal.Options
import Clausal.Passes.Capture
import Clausal.Passes.CaseExpansion
import Clausal.Passes.MatchExpansion
import Clausal.Passes.Resolution

/-! # The passes in order -/

namespace Clausal

/-- The passes over a tree. -/
inductive Pass where
  | matchExpansion
  | caseExpansion
  | closureCapture
  | localResolution
deriving DecidableEq, Repr

namespace Pass

def name : Pass → String
  | matchExpansion => "match-expansion"
  | caseExpansion => "case-expansion"
  | closureCapture => "closure-capture"
  | localResolution => "local-resolution"

def all : List Pass := [matchExpansion, caseExpansion, closureCapture, localResolution]

def enabled (o : Options) : Pass → Bool
  | matchExpansion => o.expandMatches
  | caseExpansion => o.expandCases
  | closureCapture => o.captureClosures
  | localResolution => o.resolveLocals

def run : Pass → Edit (List Diagnostic)
  | matchExpansion => do
    let _ ← MatchExpansion.run
    return []
  | caseExpansion => do
    let _ ← CaseExpansion.run
    return []
  | closureCapture => do
    let _ ← Capture.run
    return []
  | localResolution => Resolution.run

def runNoted (p : Pass) : Edit (List Diagnostic) := do
  Edit.note (.passStarted p.name)
  let found ← p.run
  Edit.note (.passFinished p.name found.length)
  return found

/-- Run passes one after the other; all their diagnostics. -/
def runInOrder : List Pass → Edit (List Diagnostic)
  | [] => return []
  | p :: rest => do
    let found ← p.runNoted
    return found ++ (← runInOrder rest)

end Pass

def runPasses (o : Options) : Edit (List Diagnostic) :=
  Pass.runInOrder (Pass.all.filter (·.enabled o))

end Clausal
