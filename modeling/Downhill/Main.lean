import Downhill.Demo.Random

/-! The command line: it runs the demonstration. -/
namespace Downhill.Demo

def usage : List String :=
  ["usage: downhill [-h] [--seed SEED] [--verbose] [\x7blbfgs,cg,newton,all\x7d]"]

def rejection : String := "error: the command line is not understood"

/-- Prints what the demonstration shows, and answers with its exit code. -/
def act (words : List String) : IO UInt32 := do
  match command words with
  | .help =>
    usage.forM IO.println
    return 0
  | .rejected =>
    (usage ++ [rejection]).forM IO.eprintln
    return 2
  | .run a =>
    match run a fun m => drawsFor a.seed ((methods a.mode).idxOf m) with
    | .ok showing =>
      showing.errors.forM IO.eprintln
      showing.output.forM IO.println
      return UInt32.ofNat showing.exit
    | .error f =>
      IO.eprintln ((f.text?).getD "the run failed")
      return 1

end Downhill.Demo

def main (words : List String) : IO UInt32 := Downhill.Demo.act words
