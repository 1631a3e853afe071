import MplWorkbench.Files.Path

/-! What can be asked for on the command line. -/
namespace MplWorkbench

inductive Command where
  /-- Report what is wrong in some files and folders, or in the whole project. -/
  | check (paths : List Path)
  /-- Show the tree of a file. -/
  | tree (file : Path) (json : Bool)
  /-- List the labels of a file. -/
  | symbols (file : Path) (json : Bool)
  /-- Find the label that is meant at a line and column, both from one. -/
  | definition (file : Path) (line column : Nat) (project? : Option Path)
deriving DecidableEq

structure Invocation where
  verbose : Bool
  /-- The settings file that is named. -/
  settings? : Option Path
  command : Command
deriving DecidableEq

/-- Why words ask for no command. -/
inductive Refusal where
  | help
  | version
  /-- There is nothing to go by. -/
  | nothing
  /-- There are settings, but no command. -/
  | noCommand
  | unknownCommand
  /-- A word that has no place there. -/
  | unknownWord
  /-- An option without its value, or an empty path. -/
  | noValue
  | notANumber
  /-- Given twice. -/
  | repeated
  /-- A value for what takes none. -/
  | needlessValue
  /-- A command without something that it needs. -/
  | incomplete
deriving DecidableEq

end MplWorkbench
