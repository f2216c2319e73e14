import DockerEngine.Lib.Filepath
import DockerEngine.Lib.GoMap

/-!
# Filters of list requests

`filters.Args` of `pkg/parsers/filters/parse.go` and its two tests. Which texts a regular expression
matches is left to a function `matchString`, which fails on a text that is no expression.
-/

namespace DockerEngine.Filters

open Filepath

/-- `Args`: the values given for each field. -/
abbrev Args := GoMap Str (List Str)

/-- `filters[field]`, nil where there is none. -/
def Args.values (filters : Args) (field : Str) : List Str := (filters.get field).getD []

/-- `Match`: some value is an expression that the source matches. -/
def Args.matches (matchString : Str → Str → Option Bool) (filters : Args) (field source : Str) : Bool :=
  match filters.values field with
  | [] => true
  | fieldValues => fieldValues.any fun name2match => matchString name2match source == some true

/-- `strings.SplitN(s, "=", 2)`: the key, and what follows the first `=` if there is one. -/
def splitKV (s : Str) : Str × Option Str :=
  match s.dropWhile fun c => c ≠ '=' with
  | [] => (s, none)
  | _ :: v => (s.takeWhile fun c => c ≠ '=', some v)

/-- The test of one entry of the sources against one value. -/
def kvMatches (name2match : Str) (e : Str × Str) : Bool :=
  match splitKV name2match with
  | (k, none) => e.1 == k
  | (k, some v) => e.1 == k && e.2 == v

/-- `MatchKVList`: every value has an entry of the sources that fits it. -/
def Args.matchKVList (filters : Args) (field : Str) (sources : GoMap Str Str) : Bool :=
  match filters.values field with
  | [] => true
  | fieldValues =>
    if sources.size = 0 then false
    else fieldValues.all fun name2match => sources.entries.any (kvMatches name2match)

end DockerEngine.Filters
