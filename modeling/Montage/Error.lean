/-!
What goes wrong while views are configured and rendered: a kind, and a text that says more.
-/

namespace Montage

inductive ErrorKind where
  | config
  | lookup
  | render
  | query
  | definition
  | io
  | settings
deriving DecidableEq, Repr

def ErrorKind.name : ErrorKind → String
  | .config => "config"
  | .lookup => "lookup"
  | .render => "render"
  | .query => "query"
  | .definition => "definition"
  | .io => "io"
  | .settings => "settings"

structure Error where
  kind : ErrorKind
  detail : String
deriving DecidableEq, Repr

namespace Error

def message (e : Error) : String :=
  match e.kind with
  | .config => "Config error: " ++ e.detail
  | .lookup => "View `" ++ e.detail ++ "` is not found"
  | .render => "Render error: " ++ e.detail
  | .query => "Query error: " ++ e.detail
  | .definition => "Definition error: " ++ e.detail
  | .io => "IO error: " ++ e.detail
  | .settings => "Settings error: " ++ e.detail

def config (detail : String) : Error := ⟨.config, detail⟩

def render (detail : String) : Error := ⟨.render, detail⟩

def query (detail : String) : Error := ⟨.query, detail⟩

def definition (detail : String) : Error := ⟨.definition, detail⟩

def settings (detail : String) : Error := ⟨.settings, detail⟩

/-- No view has this name. -/
def unknownView (name : String) : Error := ⟨.lookup, name⟩

def missingView : Error := config "config is missing a `view`"

end Error

end Montage
