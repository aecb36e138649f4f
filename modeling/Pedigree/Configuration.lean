import Pedigree.Path

/-!
# Configuration

The settings of a project, with the defaults that hold where a setting is not given, and what
the environment and the command line put in their place. A `Project` is everything that a
compilation needs to know.
-/

namespace Pedigree

/-- The settings of a project. -/
structure Configuration where
  /-- The locale whose overlays apply. -/
  locale : Option String
  /-- The extensions of definition files. -/
  extensions : List String
  /-- Where documents go. A relative path starts at the root. -/
  outputDirectory : Path
  /-- The indent of documents. -/
  indent : Nat
deriving DecidableEq

/-- The extensions of definition files unless others are given. -/
def defaultExtensions : List String := ["yaml"]

/-- Where documents go unless it is given. -/
def defaultOutputDirectory : Path := ⟨"compilation"⟩

/-- The indent of documents unless one is given. -/
def defaultIndent : Nat := 4

/-- The settings without a configuration file. -/
def Configuration.default : Configuration :=
  ⟨none, defaultExtensions, defaultOutputDirectory, defaultIndent⟩

/-- A project: a root of definitions with its settings. -/
structure Project where
  root : Path
  locale : Option String
  extensions : List String
  outputDirectory : Path
  indent : Nat
deriving DecidableEq

namespace Project

/-- A project by its configuration. -/
def ofConfiguration (root : Path) (c : Configuration) : Project :=
  ⟨root, c.locale, c.extensions, root.join c.outputDirectory, c.indent⟩

/-- Puts another locale in place, if one is given. -/
def withLocale (p : Project) (locale : Option String) : Project :=
  { p with locale := locale.or p.locale }

/-- Puts another output directory in place, if one is given. A relative one starts at the root. -/
def withOutputDirectory (p : Project) (directory : Option Path) : Project :=
  match directory with
  | some directory => { p with outputDirectory := p.root.join directory }
  | none => p

end Project

end Pedigree
