/-!
# Kinds of nodes

A node of a grammar's tree is named for the production it was read by. Layout does not care about
most of them: `NodeKind.category` folds the productions onto the few categories that have layout
rules of their own, and every other node inherits the layout of the nearest such node around it.
-/

namespace GrammarLayout

/-- The production a node was read by. -/
inductive NodeKind
  | grammarSpec
  | grammarDecl
  | grammarType
  | optionsSpec
  | optionEntry
  | optionValue
  | delegateGrammars
  | delegateGrammar
  | tokensSpec
  | channelsSpec
  | idList
  | action
  | actionScopeName
  | actionBlock
  | modeSpec
  | rules
  | ruleSpec
  | parserRuleSpec
  | ruleModifiers
  | ruleReturns
  | throwsSpec
  | localsSpec
  | ruleAction
  | exceptionGroup
  | exceptionHandler
  | finallyClause
  | ruleBlock
  | ruleAltList
  | labeledAlt
  | altList
  | alternative
  | element
  | labeledElement
  | ebnfSuffix
  | block
  | atom
  | terminal
  | ruleRef
  | notSet
  | blockSet
  | setElement
  | characterRange
  | elementOptions
  | elementOption
  | lexerRuleSpec
  | lexerRuleBlock
  | lexerAltList
  | lexerAlt
  | lexerElement
  | labeledLexerElement
  | lexerBlock
  | lexerAtom
  | lexerCommands
  | lexerCommand
  | identifier
  /-- Tokens no production could place, kept as they are. -/
  | recovered
  deriving DecidableEq, Repr

/-- The layout-relevant category of a node. -/
inductive Category
  | grammarSpec
  | grammarType
  | optionsSpec
  | tokensSpec
  | channelsSpec
  | modeSpec
  | ruleSpec
  | lexerRuleSpec
  | labeledAlternative
  | actionBlock
  | other
  deriving DecidableEq, Repr

/-- What entering a node does to the layout context. -/
inductive Entry
  /-- A frame of its own, on a new line. -/
  | block
  /-- A frame of its own, on the current line. -/
  | inline
  /-- The frame around it stays in force. -/
  | inherit
  deriving DecidableEq, Repr

/-- The name of an entry. -/
def Entry.name : Entry → String
  | .block => "Block"
  | .inline => "Inline"
  | .inherit => "Inherit"

namespace Category

/-- Every category, in the order of declaration. -/
def all : List Category :=
  [grammarSpec, grammarType, optionsSpec, tokensSpec, channelsSpec, modeSpec, ruleSpec,
   lexerRuleSpec, labeledAlternative, actionBlock, other]

/-- No category is missing from the list of all categories. -/
theorem mem_all (c : Category) : c ∈ all := by cases c <;> decide

/-- The name of a category. -/
def name : Category → String
  | grammarSpec => "GrammarSpec"
  | grammarType => "GrammarType"
  | optionsSpec => "OptionsSpec"
  | tokensSpec => "TokensSpec"
  | channelsSpec => "ChannelsSpec"
  | modeSpec => "ModeSpec"
  | ruleSpec => "RuleSpec"
  | lexerRuleSpec => "LexerRuleSpec"
  | labeledAlternative => "LabeledAlternative"
  | actionBlock => "ActionBlock"
  | other => "Other"

/-- The category with a given name. -/
def ofName? (s : String) : Option Category := all.find? (·.name == s)

/-- Constructs that start a line have a frame of their own there; alternatives and actions have one
on the line they stand on. -/
def entry : Category → Entry
  | grammarSpec | optionsSpec | tokensSpec | channelsSpec | modeSpec | ruleSpec | lexerRuleSpec =>
    .block
  | labeledAlternative | actionBlock => .inline
  | grammarType | other => .inherit

/-- Whether nodes of this category have a frame of their own. -/
def ownsFrame (c : Category) : Bool := c.entry != .inherit

end Category

namespace NodeKind

/-- Every kind of node, in the order of declaration. -/
def all : List NodeKind :=
  [grammarSpec, grammarDecl, grammarType, optionsSpec, optionEntry, optionValue, delegateGrammars,
   delegateGrammar, tokensSpec, channelsSpec, idList, action, actionScopeName, actionBlock,
   modeSpec, rules, ruleSpec, parserRuleSpec, ruleModifiers, ruleReturns, throwsSpec, localsSpec,
   ruleAction, exceptionGroup, exceptionHandler, finallyClause, ruleBlock, ruleAltList, labeledAlt,
   altList, alternative, element, labeledElement, ebnfSuffix, block, atom, terminal, ruleRef,
   notSet, blockSet, setElement, characterRange, elementOptions, elementOption, lexerRuleSpec,
   lexerRuleBlock, lexerAltList, lexerAlt, lexerElement, labeledLexerElement, lexerBlock,
   lexerAtom, lexerCommands, lexerCommand, identifier, recovered]

/-- No kind is missing from the list of all kinds. -/
theorem mem_all (k : NodeKind) : k ∈ all := by cases k <;> decide

/-- The name of a kind of node. -/
def name : NodeKind → String
  | grammarSpec => "GrammarSpec"
  | grammarDecl => "GrammarDecl"
  | grammarType => "GrammarType"
  | optionsSpec => "OptionsSpec"
  | optionEntry => "OptionEntry"
  | optionValue => "OptionValue"
  | delegateGrammars => "DelegateGrammars"
  | delegateGrammar => "DelegateGrammar"
  | tokensSpec => "TokensSpec"
  | channelsSpec => "ChannelsSpec"
  | idList => "IdList"
  | action => "Action"
  | actionScopeName => "ActionScopeName"
  | actionBlock => "ActionBlock"
  | modeSpec => "ModeSpec"
  | rules => "Rules"
  | ruleSpec => "RuleSpec"
  | parserRuleSpec => "ParserRuleSpec"
  | ruleModifiers => "RuleModifiers"
  | ruleReturns => "RuleReturns"
  | throwsSpec => "ThrowsSpec"
  | localsSpec => "LocalsSpec"
  | ruleAction => "RuleAction"
  | exceptionGroup => "ExceptionGroup"
  | exceptionHandler => "ExceptionHandler"
  | finallyClause => "FinallyClause"
  | ruleBlock => "RuleBlock"
  | ruleAltList => "RuleAltList"
  | labeledAlt => "LabeledAlt"
  | altList => "AltList"
  | alternative => "Alternative"
  | element => "Element"
  | labeledElement => "LabeledElement"
  | ebnfSuffix => "EbnfSuffix"
  | block => "Block"
  | atom => "Atom"
  | terminal => "Terminal"
  | ruleRef => "RuleRef"
  | notSet => "NotSet"
  | blockSet => "BlockSet"
  | setElement => "SetElement"
  | characterRange => "CharacterRange"
  | elementOptions => "ElementOptions"
  | elementOption => "ElementOption"
  | lexerRuleSpec => "LexerRuleSpec"
  | lexerRuleBlock => "LexerRuleBlock"
  | lexerAltList => "LexerAltList"
  | lexerAlt => "LexerAlt"
  | lexerElement => "LexerElement"
  | labeledLexerElement => "LabeledLexerElement"
  | lexerBlock => "LexerBlock"
  | lexerAtom => "LexerAtom"
  | lexerCommands => "LexerCommands"
  | lexerCommand => "LexerCommand"
  | identifier => "Identifier"
  | recovered => "Recovered"

/-- The kind of node with a given name. -/
def ofName? (s : String) : Option NodeKind := all.find? (·.name == s)

/-- The category whose layout rules apply inside a node. -/
def category : NodeKind → Category
  | grammarSpec => .grammarSpec
  | grammarType => .grammarType
  | optionsSpec => .optionsSpec
  | tokensSpec => .tokensSpec
  | channelsSpec => .channelsSpec
  | modeSpec => .modeSpec
  | ruleSpec => .ruleSpec
  | lexerRuleSpec => .lexerRuleSpec
  | labeledAlt => .labeledAlternative
  | actionBlock => .actionBlock
  | _ => .other

end NodeKind

end GrammarLayout
