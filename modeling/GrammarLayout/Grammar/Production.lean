import GrammarLayout.Grammar.Pattern

/-!
# Productions of grammars

A grammar is a header, constructs in front of the rules, rules, and modes with rules of their own.
Every production that forms a node is one definition here, from the smallest to the whole grammar.

A rule that does not fit its production is not an error. The production `recovered` stands beside
every rule and takes the tokens up to the next semicolon as they are; it leaves complete mode
headers alone, so that a broken rule never swallows the mode after it.
-/

namespace GrammarLayout.Production

open Pattern

/-! ### Names, options and actions -/

/-- A rule name or a token name. -/
def identifier : Pattern := node .identifier (token [.ruleRef, .tokenRef])

/-- An action in braces. -/
def actionBlock : Pattern :=
  node .actionBlock (seqs (tok .beginAction) [many (tok .actionContent), tok .endAction])

/-- The value of an option: a dotted name, a literal, an action or a number. -/
def optionValue : Pattern :=
  node .optionValue
    (alts (seq identifier (many (seq (tok .dot) identifier)))
      [tok .stringLiteral, actionBlock, tok .int])

/-- An option with its value. -/
def optionEntry : Pattern :=
  node .optionEntry (seqs identifier [tok .assign, optionValue])

/-- A block of options. -/
def optionsSpec : Pattern :=
  node .optionsSpec
    (seqs (tok .kwOptions) [tok .lbrace, many (seq optionEntry (tok .semi)), tok .rbrace])

/-! ### Constructs in front of the rules -/

/-- An imported grammar, perhaps under another name. -/
def delegateGrammar : Pattern :=
  node .delegateGrammar (seq identifier (opt (seq (tok .assign) identifier)))

/-- A list of imported grammars. -/
def delegateGrammars : Pattern :=
  node .delegateGrammars
    (seqs (tok .kwImport)
      [delegateGrammar, many (seq (tok .comma) delegateGrammar), tok .semi])

/-- Names between commas; one more comma may follow the last. -/
def idList : Pattern :=
  node .idList
    (seqs identifier [many (seq (tok .comma) identifier), opt (tok .comma)])

/-- A block of token names. -/
def tokensSpec : Pattern :=
  node .tokensSpec (seqs (tok .kwTokens) [tok .lbrace, opt idList, tok .rbrace])

/-- A block of channel names. -/
def channelsSpec : Pattern :=
  node .channelsSpec (seqs (tok .kwChannels) [tok .lbrace, opt idList, tok .rbrace])

/-- What an action is for, before its double colon. -/
def actionScopeName : Pattern :=
  node .actionScopeName (alt identifier (token [.kwLexer, .kwParser]))

/-- A named action of the whole grammar. -/
def action : Pattern :=
  node .action
    (seqs (tok .atSign) [opt (seq actionScopeName (tok .colonColon)), identifier, actionBlock])

/-- Any construct in front of the rules. -/
def prequelConstruct : Pattern :=
  alts optionsSpec [delegateGrammars, tokensSpec, channelsSpec, action]

/-! ### Elements that parser and lexer rules share -/

/-- An option of an element, perhaps with a value. -/
def elementOption : Pattern :=
  node .elementOption
    (seq identifier (opt (seq (tok .assign) (alt identifier (tok .stringLiteral)))))

/-- Options of an element between angle brackets. -/
def elementOptions : Pattern :=
  node .elementOptions
    (seqs (tok .lt) [elementOption, many (seq (tok .comma) elementOption), tok .gt])

/-- Two literals with two dots between them. -/
def characterRange : Pattern :=
  node .characterRange (seqs (tok .stringLiteral) [tok .range, tok .stringLiteral])

/-- A token name or a literal. -/
def terminal : Pattern :=
  node .terminal (seq (token [.tokenRef, .stringLiteral]) (opt elementOptions))

/-- A member of a set. -/
def setElement : Pattern :=
  node .setElement
    (alts characterRange
      [seq (token [.tokenRef, .stringLiteral]) (opt elementOptions), tok .charSet])

/-- A set in parentheses. -/
def blockSet : Pattern :=
  node .blockSet
    (seqs (tok .lparen) [setElement, many (seq (tok .bar) setElement), tok .rparen])

/-- A negated set. -/
def notSet : Pattern := node .notSet (seq (tok .tilde) (alt setElement blockSet))

/-- How often an element may come, perhaps without greed. -/
def ebnfSuffix : Pattern :=
  node .ebnfSuffix (seq (token [.question, .star, .plus]) (opt (tok .question)))

/-- Any element with something after the label: labelled, atomic, a sub-rule or an action. -/
def elementOf (kind : NodeKind) (labeled atom : Pattern) (nest : Nest) : Pattern :=
  node kind
    (alts (seq labeled (opt ebnfSuffix))
      [seq atom (opt ebnfSuffix), seq (nested nest) (opt ebnfSuffix),
       seq actionBlock (opt (tok .question))])

/-- An atom or a sub-rule with a label. -/
def labeledOf (kind : NodeKind) (atom : Pattern) (nest : Nest) : Pattern :=
  node kind (seqs identifier [token [.assign, .plusAssign], alt atom (nested nest)])

/-- Alternatives with bars between them. -/
def alternativesOf (kind : NodeKind) (p : Pattern) : Pattern :=
  node kind (seq p (many (seq (tok .bar) p)))

/-- Any character, perhaps with options. -/
def wildcard : Pattern := seq (tok .dot) (opt elementOptions)

/-! ### Parser rules -/

/-- A rule name as an element, perhaps with arguments. -/
def ruleRef : Pattern :=
  node .ruleRef (seqs (tok .ruleRef) [opt (tok .charSet), opt elementOptions])

/-- An element that holds no other. -/
def atom : Pattern := node .atom (alts terminal [ruleRef, notSet, wildcard])

/-- An element of a parser rule with a label. -/
def labeledElement : Pattern := labeledOf .labeledElement atom .parserBlock

/-- An element of a parser rule. -/
def element : Pattern := elementOf .element labeledElement atom .parserBlock

/-- Elements one after the other; there may be none. -/
def alternative : Pattern := node .alternative (seq (opt elementOptions) (many element))

/-- The alternatives of a sub-rule. -/
def altList : Pattern := alternativesOf .altList alternative

/-- An alternative, perhaps with a label. -/
def labeledAlt : Pattern :=
  node .labeledAlt (seq alternative (opt (seq (tok .pound) identifier)))

/-- The alternatives of a parser rule. -/
def ruleAltList : Pattern := alternativesOf .ruleAltList labeledAlt

/-- A named action of one rule. -/
def ruleAction : Pattern := node .ruleAction (seqs (tok .atSign) [identifier, actionBlock])

/-- A sub-rule of a parser rule, perhaps with options and actions of its own. -/
def block : Pattern :=
  node .block
    (seqs (tok .lparen)
      [opt (seqs (opt optionsSpec) [many ruleAction, tok .colon]), altList, tok .rparen])

/-- The modifiers of a rule. -/
def ruleModifiers : Pattern :=
  node .ruleModifiers (many1 (token [.kwPublic, .kwPrivate, .kwProtected, .kwFragment]))

/-- What a rule returns. -/
def ruleReturns : Pattern := node .ruleReturns (seq (tok .kwReturns) (tok .charSet))

/-- What a rule throws. -/
def throwsSpec : Pattern :=
  node .throwsSpec (seqs (tok .kwThrows) [identifier, many (seq (tok .comma) identifier)])

/-- The local variables of a rule. -/
def localsSpec : Pattern := node .localsSpec (seq (tok .kwLocals) (tok .charSet))

/-- A handler of one exception. -/
def exceptionHandler : Pattern :=
  node .exceptionHandler (seqs (tok .kwCatch) [tok .charSet, actionBlock])

/-- What is done after a rule in any case. -/
def finallyClause : Pattern := node .finallyClause (seq (tok .kwFinally) actionBlock)

/-- The handlers of a rule; there may be none. -/
def exceptionGroup : Pattern :=
  node .exceptionGroup (seq (many exceptionHandler) (opt finallyClause))

/-- A parser rule. -/
def parserRuleSpec : Pattern :=
  node .parserRuleSpec
    (seqs (opt (tok .docComment))
      [opt ruleModifiers, tok .ruleRef, opt (tok .charSet), opt ruleReturns, opt throwsSpec,
       opt localsSpec, many (alt optionsSpec ruleAction), tok .colon,
       node .ruleBlock ruleAltList, tok .semi, exceptionGroup])

/-! ### Lexer rules -/

/-- An element of a lexer rule that holds no other. -/
def lexerAtom : Pattern :=
  node .lexerAtom (alts characterRange [terminal, notSet, tok .charSet, wildcard])

/-- An element of a lexer rule with a label. -/
def labeledLexerElement : Pattern := labeledOf .labeledLexerElement lexerAtom .lexerBlock

/-- An element of a lexer rule. -/
def lexerElement : Pattern := elementOf .lexerElement labeledLexerElement lexerAtom .lexerBlock

/-- A command of a lexer rule, perhaps with an argument. -/
def lexerCommand : Pattern :=
  node .lexerCommand
    (seq (alt identifier (tok .kwMode))
      (opt (seqs (tok .lparen) [alt identifier (tok .int), tok .rparen])))

/-- The commands of an alternative, after its arrow. -/
def lexerCommands : Pattern :=
  node .lexerCommands
    (seqs (tok .arrow) [lexerCommand, many (seq (tok .comma) lexerCommand)])

/-- An alternative of a lexer rule; it may be empty. -/
def lexerAlt : Pattern := node .lexerAlt (seq (many lexerElement) (opt lexerCommands))

/-- The alternatives of a lexer rule. -/
def lexerAltList : Pattern := alternativesOf .lexerAltList lexerAlt

/-- A sub-rule of a lexer rule, perhaps with options of its own. -/
def lexerBlock : Pattern :=
  node .lexerBlock
    (seqs (tok .lparen) [opt (seq optionsSpec (tok .colon)), lexerAltList, tok .rparen])

/-- A lexer rule. -/
def lexerRuleSpec : Pattern :=
  node .lexerRuleSpec
    (seqs (opt (tok .docComment))
      [opt (tok .kwFragment), tok .tokenRef, opt optionsSpec, tok .colon,
       node .lexerRuleBlock lexerAltList, tok .semi])

/-! ### The whole grammar -/

/-- One piece of a recovered region: an action, or any token that may be in one. -/
def strayPiece : Pattern := alt actionBlock stray

/-- Tokens up to and including the next semicolon, kept as they are; without one, up to where the
region has to end. -/
def recovered : Pattern :=
  node .recovered (alt (seq (many strayPiece) strayEnd) (many1 strayPiece))

/-- A rule of either sort. -/
def ruleSpec : Pattern := node .ruleSpec (alt parserRuleSpec lexerRuleSpec)

/-- All rules in front of the modes. -/
def rules : Pattern := node .rules (many (alt ruleSpec recovered))

/-- A mode with its lexer rules. -/
def modeSpec : Pattern :=
  node .modeSpec
    (seqs (tok .kwMode) [identifier, tok .semi, many (alt lexerRuleSpec recovered)])

/-- The sort of grammar. -/
def grammarType : Pattern :=
  node .grammarType (alt (seq (token [.kwLexer, .kwParser]) (tok .kwGrammar)) (tok .kwGrammar))

/-- The header of a grammar. -/
def grammarDecl : Pattern := node .grammarDecl (seqs grammarType [identifier, tok .semi])

/-- A whole grammar, through the end of the input. -/
def grammarSpec : Pattern :=
  node .grammarSpec
    (seqs (many (tok .docComment))
      [grammarDecl, many prequelConstruct, rules, many modeSpec, tok .eof])

/-- The production of each sub-rule in parentheses. -/
def ofNest : Nest → Pattern
  | .parserBlock => block
  | .lexerBlock => lexerBlock

end GrammarLayout.Production
