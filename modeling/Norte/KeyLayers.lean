import Norte.FirstError
import Norte.KeyChord

/-! The files of a keymap: a preset with its full list, and the layers that put bindings before
and after it. What a project's own layer binds to a script of the user is discarded. -/
namespace Norte.Keymap

/-- A binding as it is written. -/
structure RawBinding where
  on : List Str
  run : Str
  deriving DecidableEq, Repr

structure RawSection where
  keymap : List RawBinding := []
  prependKeymap : List RawBinding := []
  appendKeymap : List RawBinding := []
  deriving DecidableEq, Repr

structure KeymapFile where
  counts : Bool := false
  typeToSearch : Bool := false
  global : RawSection := {}
  pane : RawSection := {}
  viewer : RawSection := {}
  dialog : RawSection := {}
  dialogFrom : Option Str := none
  project : Bool := false
  deriving DecidableEq, Repr

inductive Screen where
  | browse
  | viewer
  | dialog
  deriving DecidableEq, Repr

/-- The section of a screen's own context. -/
def Screen.specific : Screen → KeymapFile → RawSection
  | browse, f => f.pane
  | viewer, f => f.viewer
  | dialog, f => f.dialog

def Screen.section : Screen → String
  | browse => "pane"
  | viewer => "viewer"
  | dialog => "dialog"

/-- `section_mut`. -/
def KeymapFile.withSection (f : KeymapFile) : Screen → RawSection → KeymapFile
  | .browse, s => { f with pane := s }
  | .viewer, s => { f with viewer := s }
  | .dialog, s => { f with dialog := s }

@[simp] theorem specific_withSection (f : KeymapFile) (screen : Screen) (s : RawSection) :
    screen.specific (f.withSection screen s) = s := by
  cases screen <;> rfl

@[simp] theorem global_withSection (f : KeymapFile) (screen : Screen) (s : RawSection) :
    (f.withSection screen s).global = f.global := by
  cases screen <;> rfl

@[simp] theorem project_withSection (f : KeymapFile) (screen : Screen) (s : RawSection) :
    (f.withSection screen s).project = f.project := by
  cases screen <;> rfl

/-- The section a binding was read from: the screen's own, or the one that is in every screen. -/
inductive Section where
  | specific
  | global
  deriving DecidableEq, Repr

/-- `strip_prefix`. -/
def stripPrefix (pre s : Str) : Option Str := if pre.isPrefixOf s then some (s.drop pre.length) else none

def lua : Str := "lua:".toList
def user : Str := "user:".toList

/-- Whether the command is a script of the user's: a Lua function or a user command. -/
def RawBinding.isScript (b : RawBinding) : Bool := lua.isPrefixOf b.run || user.isPrefixOf b.run

/-- A script that a project's layer binds is discarded, and counted. -/
def discards (layer : KeymapFile) (b : RawBinding) : Bool := layer.project && b.isScript

/-- The bindings of one context, those that win first: what the higher layers prepend, the preset,
and what they append. -/
def mergeCtx (preset : KeymapFile) (layers : List KeymapFile) (get : KeymapFile → RawSection) : List RawBinding :=
  (layers.reverse.flatMap fun l => (get l).prependKeymap.filter fun b => !discards l b) ++
    ((get preset).keymap ++ layers.reverse.flatMap fun l => (get l).appendKeymap.filter fun b => !discards l b)

/-- How many bindings of a context are discarded. -/
def discardedCtx (layers : List KeymapFile) (get : KeymapFile → RawSection) : Nat :=
  (layers.map fun l => ((get l).prependKeymap ++ (get l).appendKeymap).countP (discards l)).sum

/-- The screen's own context comes before the one that is in every screen. -/
def mergedBindings (preset : KeymapFile) (layers : List KeymapFile) (screen : Screen) : List (RawBinding × Section) :=
  (mergeCtx preset layers screen.specific).map (·, .specific) ++
    (mergeCtx preset layers KeymapFile.global).map (·, .global)

def discardedBindings (layers : List KeymapFile) (screen : Screen) : Nat :=
  discardedCtx layers screen.specific + discardedCtx layers KeymapFile.global

def sections (f : KeymapFile) : List RawSection := [f.global, f.pane, f.viewer, f.dialog]

/-- What a layer may not say. -/
def checkLayer (layer : KeymapFile) : Except KeymapError Unit :=
  if layer.counts then .error (.wrongLayerKey "usuario" "counts")
  else if layer.typeToSearch then .error (.wrongLayerKey "usuario" "type_to_search")
  else if layer.dialogFrom.isSome then .error (.wrongLayerKey "usuario" "dialog_from")
  else if (sections layer).any fun s => !s.keymap.isEmpty then .error (.wrongLayerKey "usuario" "keymap")
  else .ok ()

/-- Each file has only the lists of its kind. -/
def checkLayerKeys (preset : KeymapFile) (layers : List KeymapFile) : Except KeymapError Unit :=
  if (sections preset).any fun s => !(s.prependKeymap.isEmpty && s.appendKeymap.isEmpty) then
    .error (.wrongLayerKey "preset" "prepend_keymap/append_keymap")
  else layers.forM checkLayer

end Norte.Keymap
