import Reckoner.Desk.Session

/-!
# The panel

What the calculator shows of a session, as a list of widgets in reading order, and
what the keys and the widgets do.  A widget that can be pressed carries its action,
so pressing is looking up a widget and performing what it says.
-/

namespace Reckoner

/-- What pressing a widget does. -/
inductive Action where
  | evaluate
  | clear
  | setZeroOverZero (policy : ZeroOverZero)
  | insertName (name : String) (isFunction : Bool)
  /-- Opens or closes the section that shows how the result was found. -/
  | toggleDerivation
  | takeUp (index : Nat)
  | forget
  /-- Puts the cursor into the input. -/
  | focusInput
  deriving DecidableEq, Repr

/-- Something shown on the panel. -/
inductive Widget where
  | input (text : String)
  | button (text : String) (action : Action)
  | label (text : String)
  /-- A label that can be pressed. -/
  | link (text : String) (action : Action)
  | number (value : Nat)
  | radio (text : String) (selected : Bool) (action : Action)
  deriving DecidableEq, Repr

/-- The kinds of widgets that look different; a link looks like a label. -/
inductive WidgetKind where
  | input
  | button
  | label
  | number
  | radio
  deriving DecidableEq, Repr

namespace Widget

/-- The kind of a widget. -/
def kind : Widget → WidgetKind
  | input _ => .input
  | button _ _ => .button
  | label _ | link _ _ => .label
  | number _ => .number
  | radio _ _ _ => .radio

/-- The text of a widget. -/
def text : Widget → String
  | input text | button text _ | label text | link text _ | radio text _ _ => text
  | number value => String.ofList (Numeral.digits value)

/-- What pressing a widget does, if it does anything. -/
def action? : Widget → Option Action
  | input _ => some .focusInput
  | button _ action | link _ action | radio _ _ action => some action
  | label _ | number _ => none

end Widget

/-- A session on the panel. -/
structure Panel where
  session : Session
  /-- Whether the input has the keyboard. -/
  focused : Bool
  /-- Whether the section that shows how the result was found is open. -/
  derivationOpen : Bool

namespace Panel

/-! ## View -/

/-- The entry and the settings. -/
def settingWidgets (s : Session) : List Widget :=
  [.input s.input, .button "=" .evaluate, .button "⌫" .clear,
   .label "précision", .number s.settings.precision,
   .label "lecture", .number s.settings.places,
   .label "0/0 :",
   .radio "faute" (s.settings.zeroOverZero == .fault) (.setZeroOverZero .fault),
   .radio "0" (s.settings.zeroOverZero == .zero) (.setZeroOverZero .zero)]

/-- The names that can be inserted. -/
def registryWidgets (r : Registry) : List Widget :=
  [.label "Registre", .label "constantes"]
    ++ r.constants.map (fun c => .button c.name (.insertName c.name false))
    ++ [.label "fonctions"]
    ++ r.functions.map (fun f => .button (f.name ++ "( )") (.insertName f.name true))

/-- How a result was found. -/
def derivationWidgets (d : Derivation) : List Widget :=
  [.label "jetons", .label d.tokens, .label "RPN", .label d.postfixLine,
   .label "arbre", .label d.tree, .label d.note]

/-- The last result. -/
def resultWidgets (p : Panel) : List Widget :=
  match p.session.current with
  | none => [.label "Entrer une expression puis ="]
  | some (.error f) => [.label f.text]
  | some (.ok c) =>
    let d := c.report.derivation
    let places := p.session.settings.places
    let title := s!"lecture ({places} chiffres)"
    let section? := if p.derivationOpen then derivationWidgets d else []
    [.label "exact", .label c.report.exact, .label title, .label c.report.reading,
     .button ("démarche (" ++ d.nature.name ++ ")") .toggleDerivation] ++ section?

/-- The history, newest first. -/
def historyWidgets (history : List Calculation) : List Widget :=
  .label "Historique"
    :: (if history.isEmpty then [] else [.button "vider" .forget])
    ++ history.zipIdx.flatMap fun (c, i) =>
      [.link c.entry (.takeUp i), .label ("= " ++ c.report.exact)]

/-- Everything on the panel, in order. -/
def view (p : Panel) : List Widget :=
  settingWidgets p.session ++ registryWidgets p.session.parser.registry ++ p.resultWidgets
    ++ historyWidgets p.session.history

/-! ## Behaviour -/

/-- Gives the input the focus if the session asks for it. -/
def settle (p : Panel) : Panel :=
  if p.session.wantsFocus then { p with session := p.session.focusGiven, focused := true } else p

/-- A new session on a panel. -/
def new : Panel := settle ⟨{}, false, false⟩

/-- Changes the session and settles. -/
def update (p : Panel) (f : Session → Session) : Panel :=
  settle { p with session := f p.session }

/-- Changes the settings; a fault shows in place of the result. -/
def configure (p : Panel) (settings : Settings) : Panel :=
  p.update fun s =>
    match s.configure settings with
    | .ok s => s
    | .error f => { s with current := some (.error f) }

/-- Performs the action of a widget. -/
def perform (p : Panel) : Action → Panel
  | .evaluate => p.update Session.evaluate
  | .clear => p.update Session.clear
  | .setZeroOverZero policy => p.configure { p.session.settings with zeroOverZero := policy }
  | .insertName name isFunction => p.update (·.insertName name isFunction)
  | .toggleDerivation => { p with derivationOpen := !p.derivationOpen }
  | .takeUp i => p.update (·.takeUp i)
  | .forget => p.update Session.forget
  | .focusInput => { p with focused := true }

/-- Presses the `nth` widget with a given look; nothing happens if there is none. -/
def press? (p : Panel) (kind : WidgetKind) (text : String) (nth : Nat) : Option Panel := do
  let widget ← (p.view.filter fun w => w.kind == kind && w.text == text)[nth]?
  return match widget.action? with
    | some action => p.perform action
    | none => p

/-- Types a text in place of the entry. -/
def type (p : Panel) (text : String) : Panel := p.update (·.type text)

/-- The Enter key: the input gives up the focus and the entry is evaluated.  Without
the focus the key does nothing. -/
def enter (p : Panel) : Panel :=
  if p.focused then { p with focused := false }.update Session.evaluate else p

/-- The Escape key: the entry and the result are cleared. -/
def escape (p : Panel) : Panel := p.update Session.clear

/-- The largest precision that can be dialled. -/
def maxPrecision : Nat := 200

/-- Dials the precision, or the places of the reading. -/
def dial? (p : Panel) (nth : Nat) (value : Int) : Option Panel :=
  let s := p.session.settings
  match nth with
  | 0 => some (p.configure { s with precision := min (max value.toNat 1) maxPrecision })
  | 1 => some (p.configure { s with places := min value.toNat Report.maxPlaces })
  | _ => none

end Panel
end Reckoner
