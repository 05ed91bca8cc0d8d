import Mathlib.Data.List.Basic

/-!
# Slash-separated paths

A path is a text; what it names is the list of its parts.  A cleaned path has
neither empty parts nor dots.
-/

namespace Jerboa.Lib.Path

open List

def split (p : List Char) : List (List Char) := p.splitOn '/'

def fields (p : List Char) : List (List Char) := (split p).filter fun part => part ≠ []

def join (parts : List (List Char)) : List Char := ['/'].intercalate parts

def cleanStep (out : List (List Char)) (part : List Char) : List (List Char) :=
  if part = [] ∨ part = ['.'] then out
  else if part = ['.', '.'] then out.dropLast
  else out ++ [part]

/-- The parts of the path, read from the root.  Two dots lead back, and no
further than to the root. -/
def clean (p : List Char) : List (List Char) := (split p).foldl cleanStep []

end Jerboa.Lib.Path
