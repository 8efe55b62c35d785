import Selectors.Compound
import Selectors.Options.Codec
import Selectors.Parser
import Selectors.Walk

/-!
# Configuration

All options in one place.  An update is a JSON object with a section for some of them.  A section
replaces the options it names as a whole, and what it leaves out goes back to its default.

Sections are taken in the order in which they stand in the update.  The first that does not decode
ends the update; those before it stay applied.  Unknown sections are only reported.
-/

namespace Selectors

/-- All options. -/
structure Config where
  parse : ParseOptions := {}
  walk : WalkOptions := {}
  compound : CompoundOptions := {}
  deriving DecidableEq

/-- A part of a configuration that is replaced as a whole. -/
inductive ConfigSection where
  | parse
  | walk
  | compound
  deriving DecidableEq, Repr

namespace ConfigSection

/-- Every section. -/
def all : List ConfigSection := [parse, walk, compound]

/-- The name of a section in updates. -/
def name : ConfigSection → String
  | parse => "parse"
  | walk => "walk"
  | compound => "compound"

/-- The section with the given name. -/
def ofName? (s : String) : Option ConfigSection := all.find? fun x => x.name == s

end ConfigSection

/-- Why an update fails. -/
inductive ConfigError where
  /-- The update is no object. -/
  | notAnObject (update : Json)
  /-- A section does not decode. -/
  | invalidSection (name : ConfigSection) (cause : DecodeError)

/-- The text of the error. -/
def ConfigError.message : ConfigError → String
  | notAnObject update => "got invalid configuration object " ++ update.text
  | invalidSection s cause => "invalid `" ++ s.name ++ "` configuration: " ++ cause.message

namespace Config

/-- What an update leads to. -/
structure Update where
  config : Config
  error : Option ConfigError := none
  events : List Event := []

/-- The configuration with one section decoded anew. -/
def set (c : Config) (j : Json) : ConfigSection → Except DecodeError Config
  | .parse => do .ok { c with parse := ← ParseOptions.decode j }
  | .walk => do .ok { c with walk := ← WalkOptions.decode j }
  | .compound => do .ok { c with compound := ← CompoundOptions.decode j }

/-- Applies sections one after the other. -/
def updateSections (c : Config) : List (String × Json) → Update
  | [] => { config := c }
  | (name, j) :: rest =>
    match ConfigSection.ofName? name with
    | none =>
      let u := c.updateSections rest
      { u with events := .unknownSection name :: u.events }
    | some s =>
      match c.set j s with
      | .ok c => c.updateSections rest
      | .error cause => { config := c, error := some (.invalidSection s cause) }

/-- Applies an update. -/
def update (c : Config) : Json → Update
  | .object fields => c.updateSections fields
  | j => { config := c, error := some (.notAnObject j) }

/-- The object of a configuration. -/
def toJson (c : Config) : Json :=
  .object
    [("compound", c.compound.toJson), ("parse", c.parse.toJson), ("walk", c.walk.toJson)]

/-- Reads a text, groups its compounds and walks the result, all as configured. -/
def run (c : Config) (source : String) : Except Overflow (List Visit) := do
  let list ← parse? source c.parse.offset
  let root := (Selector.groupAll c.compound list).map NodeRef.selector
  .ok (visits c.walk [] root)

end Config

end Selectors
