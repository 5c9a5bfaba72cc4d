import ScriptRefactor.Syntax.Span

/-!
# `ScriptRefactor.Syntax.Kind`: what a node of a syntax tree is

A node is either a *construct* of the language, such as a statement
or a name, or a *token*: a word or mark that the grammar asks for
literally. A construct has a fixed name; the name of a token is its
own text. Names may coincide, so the type `string` of a typed
dialect is a token that has the name of a string literal, and the
word `class` has the name of a class expression.

* `Kind.name` is the name; `Kind.isNamed` tells constructs from
  tokens.
* `Construct.isName` holds for the constructs that name a variable,
  a type or a markup component.
-/

set_option autoImplicit false

namespace ScriptRefactor.Syntax

/-- The constructs of the dialects. -/
inductive Construct where
  -- The module and its statements
  | program | hashBangLine | exportStatement | namespaceExport | exportClause
  | exportSpecifier | importStatement | importClause | namespaceImport | namedImports
  | importSpecifier | importAttribute | expressionStatement | variableDeclaration
  | lexicalDeclaration | variableDeclarator | statementBlock | elseClause | ifStatement
  | switchStatement | switchBody | switchCase | switchDefault | forStatement
  | forInStatement | whileStatement | doStatement | tryStatement | catchClause
  | finallyClause | withStatement | breakStatement | continueStatement
  | debuggerStatement | returnStatement | throwStatement | emptyStatement
  | labeledStatement | statementIdentifier | comment
  -- Functions and classes
  | functionExpression | functionDeclaration | generatorFunction
  | generatorFunctionDeclaration | arrowFunction | methodDefinition | formalParameters
  | classExpression | classDeclaration | classHeritage | classBody | fieldDefinition
  | classStaticBlock | decorator
  -- Patterns
  | objectPattern | arrayPattern | pairPattern | restPattern | assignmentPattern
  | objectAssignmentPattern | shorthandPropertyIdentifierPattern
  -- Expressions
  | parenthesizedExpression | sequenceExpression | assignmentExpression
  | augmentedAssignmentExpression | ternaryExpression | binaryExpression
  | unaryExpression | updateExpression | awaitExpression | yieldExpression
  | newExpression | callExpression | memberExpression | subscriptExpression
  | optionalChain | arguments | spreadElement | metaProperty | importCallee | object
  | pair | computedPropertyName | array | identifier | propertyIdentifier
  | privatePropertyIdentifier | shorthandPropertyIdentifier | thisWord | superWord
  | trueLiteral | falseLiteral | nullLiteral | undefinedWord | number | string
  | stringFragment | escapeSequence | templateString | templateSubstitution | regex
  | regexPattern | regexFlags
  -- Markup
  | jsxElement | jsxOpeningElement | jsxClosingElement | jsxSelfClosingElement
  | jsxAttribute | jsxNamespaceName | jsxExpression | jsxText | htmlCharacterReference
  -- Typed declarations
  | typeIdentifier | nestedIdentifier | nestedTypeIdentifier | requiredParameter
  | optionalParameter | typeAscription | functionSignature | methodSignature
  | abstractMethodSignature | publicFieldDefinition | abstractClassDeclaration
  | extendsClause | implementsClause | extendsTypeClause | interfaceDeclaration
  | interfaceBody | typeAliasDeclaration | enumDeclaration | enumBody | enumAssignment
  | moduleDeclaration | internalModule | ambientDeclaration | importRequireClause
  | importAlias | accessibilityModifier | overrideModifier | typeParameters
  | typeParameter | constraint | defaultType | assertsAscription
  | typePredicateAscription
  -- Typed expressions
  | nonNullExpression | asExpression | satisfiesExpression | typeAssertion
  | instantiationExpression
  -- Types
  | typeArguments | predefinedType | literalType | genericType | objectType
  | propertySignature | callSignature | constructSignature | indexSignature
  | mappedTypeClause | arrayType | tupleType | optionalType | restType | lookupType
  | readonlyType | unionType | intersectionType | conditionalType | inferType
  | functionType | constructorType | parenthesizedType | typeQuery | indexTypeQuery
  | thisType | existentialType | templateLiteralType | templateType | typePredicate
  | asserts | omittingTypeAscription | addingTypeAscription | optingTypeAscription
deriving DecidableEq, Repr, Inhabited

/-- The name of a construct. -/
def Construct.name : Construct → String
  | .program => "program"
  | .hashBangLine => "hash_bang_line"
  | .exportStatement => "export_statement"
  | .namespaceExport => "namespace_export"
  | .exportClause => "export_clause"
  | .exportSpecifier => "export_specifier"
  | .importStatement => "import_statement"
  | .importClause => "import_clause"
  | .namespaceImport => "namespace_import"
  | .namedImports => "named_imports"
  | .importSpecifier => "import_specifier"
  | .importAttribute => "import_attribute"
  | .expressionStatement => "expression_statement"
  | .variableDeclaration => "variable_declaration"
  | .lexicalDeclaration => "lexical_declaration"
  | .variableDeclarator => "variable_declarator"
  | .statementBlock => "statement_block"
  | .elseClause => "else_clause"
  | .ifStatement => "if_statement"
  | .switchStatement => "switch_statement"
  | .switchBody => "switch_body"
  | .switchCase => "switch_case"
  | .switchDefault => "switch_default"
  | .forStatement => "for_statement"
  | .forInStatement => "for_in_statement"
  | .whileStatement => "while_statement"
  | .doStatement => "do_statement"
  | .tryStatement => "try_statement"
  | .catchClause => "catch_clause"
  | .finallyClause => "finally_clause"
  | .withStatement => "with_statement"
  | .breakStatement => "break_statement"
  | .continueStatement => "continue_statement"
  | .debuggerStatement => "debugger_statement"
  | .returnStatement => "return_statement"
  | .throwStatement => "throw_statement"
  | .emptyStatement => "empty_statement"
  | .labeledStatement => "labeled_statement"
  | .statementIdentifier => "statement_identifier"
  | .comment => "comment"
  | .functionExpression => "function_expression"
  | .functionDeclaration => "function_declaration"
  | .generatorFunction => "generator_function"
  | .generatorFunctionDeclaration => "generator_function_declaration"
  | .arrowFunction => "arrow_function"
  | .methodDefinition => "method_definition"
  | .formalParameters => "formal_parameters"
  | .classExpression => "class"
  | .classDeclaration => "class_declaration"
  | .classHeritage => "class_heritage"
  | .classBody => "class_body"
  | .fieldDefinition => "field_definition"
  | .classStaticBlock => "class_static_block"
  | .decorator => "decorator"
  | .objectPattern => "object_pattern"
  | .arrayPattern => "array_pattern"
  | .pairPattern => "pair_pattern"
  | .restPattern => "rest_pattern"
  | .assignmentPattern => "assignment_pattern"
  | .objectAssignmentPattern => "object_assignment_pattern"
  | .shorthandPropertyIdentifierPattern => "shorthand_property_identifier_pattern"
  | .parenthesizedExpression => "parenthesized_expression"
  | .sequenceExpression => "sequence_expression"
  | .assignmentExpression => "assignment_expression"
  | .augmentedAssignmentExpression => "augmented_assignment_expression"
  | .ternaryExpression => "ternary_expression"
  | .binaryExpression => "binary_expression"
  | .unaryExpression => "unary_expression"
  | .updateExpression => "update_expression"
  | .awaitExpression => "await_expression"
  | .yieldExpression => "yield_expression"
  | .newExpression => "new_expression"
  | .callExpression => "call_expression"
  | .memberExpression => "member_expression"
  | .subscriptExpression => "subscript_expression"
  | .optionalChain => "optional_chain"
  | .arguments => "arguments"
  | .spreadElement => "spread_element"
  | .metaProperty => "meta_property"
  | .importCallee => "import"
  | .object => "object"
  | .pair => "pair"
  | .computedPropertyName => "computed_property_name"
  | .array => "array"
  | .identifier => "identifier"
  | .propertyIdentifier => "property_identifier"
  | .privatePropertyIdentifier => "private_property_identifier"
  | .shorthandPropertyIdentifier => "shorthand_property_identifier"
  | .thisWord => "this"
  | .superWord => "super"
  | .trueLiteral => "true"
  | .falseLiteral => "false"
  | .nullLiteral => "null"
  | .undefinedWord => "undefined"
  | .number => "number"
  | .string => "string"
  | .stringFragment => "string_fragment"
  | .escapeSequence => "escape_sequence"
  | .templateString => "template_string"
  | .templateSubstitution => "template_substitution"
  | .regex => "regex"
  | .regexPattern => "regex_pattern"
  | .regexFlags => "regex_flags"
  | .jsxElement => "jsx_element"
  | .jsxOpeningElement => "jsx_opening_element"
  | .jsxClosingElement => "jsx_closing_element"
  | .jsxSelfClosingElement => "jsx_self_closing_element"
  | .jsxAttribute => "jsx_attribute"
  | .jsxNamespaceName => "jsx_namespace_name"
  | .jsxExpression => "jsx_expression"
  | .jsxText => "jsx_text"
  | .htmlCharacterReference => "html_character_reference"
  | .typeIdentifier => "type_identifier"
  | .nestedIdentifier => "nested_identifier"
  | .nestedTypeIdentifier => "nested_type_identifier"
  | .requiredParameter => "required_parameter"
  | .optionalParameter => "optional_parameter"
  | .typeAscription => "type_annotation"
  | .functionSignature => "function_signature"
  | .methodSignature => "method_signature"
  | .abstractMethodSignature => "abstract_method_signature"
  | .publicFieldDefinition => "public_field_definition"
  | .abstractClassDeclaration => "abstract_class_declaration"
  | .extendsClause => "extends_clause"
  | .implementsClause => "implements_clause"
  | .extendsTypeClause => "extends_type_clause"
  | .interfaceDeclaration => "interface_declaration"
  | .interfaceBody => "interface_body"
  | .typeAliasDeclaration => "type_alias_declaration"
  | .enumDeclaration => "enum_declaration"
  | .enumBody => "enum_body"
  | .enumAssignment => "enum_assignment"
  | .moduleDeclaration => "module"
  | .internalModule => "internal_module"
  | .ambientDeclaration => "ambient_declaration"
  | .importRequireClause => "import_require_clause"
  | .importAlias => "import_alias"
  | .accessibilityModifier => "accessibility_modifier"
  | .overrideModifier => "override_modifier"
  | .typeParameters => "type_parameters"
  | .typeParameter => "type_parameter"
  | .constraint => "constraint"
  | .defaultType => "default_type"
  | .assertsAscription => "asserts_annotation"
  | .typePredicateAscription => "type_predicate_annotation"
  | .nonNullExpression => "non_null_expression"
  | .asExpression => "as_expression"
  | .satisfiesExpression => "satisfies_expression"
  | .typeAssertion => "type_assertion"
  | .instantiationExpression => "instantiation_expression"
  | .typeArguments => "type_arguments"
  | .predefinedType => "predefined_type"
  | .literalType => "literal_type"
  | .genericType => "generic_type"
  | .objectType => "object_type"
  | .propertySignature => "property_signature"
  | .callSignature => "call_signature"
  | .constructSignature => "construct_signature"
  | .indexSignature => "index_signature"
  | .mappedTypeClause => "mapped_type_clause"
  | .arrayType => "array_type"
  | .tupleType => "tuple_type"
  | .optionalType => "optional_type"
  | .restType => "rest_type"
  | .lookupType => "lookup_type"
  | .readonlyType => "readonly_type"
  | .unionType => "union_type"
  | .intersectionType => "intersection_type"
  | .conditionalType => "conditional_type"
  | .inferType => "infer_type"
  | .functionType => "function_type"
  | .constructorType => "constructor_type"
  | .parenthesizedType => "parenthesized_type"
  | .typeQuery => "type_query"
  | .indexTypeQuery => "index_type_query"
  | .thisType => "this_type"
  | .existentialType => "existential_type"
  | .templateLiteralType => "template_literal_type"
  | .templateType => "template_type"
  | .typePredicate => "type_predicate"
  | .asserts => "asserts"
  | .omittingTypeAscription => "omitting_type_annotation"
  | .addingTypeAscription => "adding_type_annotation"
  | .optingTypeAscription => "opting_type_annotation"

/-- The construct names a variable, a type or a markup component. -/
def Construct.isName : Construct → Bool
  | .identifier | .shorthandPropertyIdentifier | .shorthandPropertyIdentifierPattern
  | .typeIdentifier => true
  | _ => false

/-- A construct, or a token with its text. -/
inductive Kind where
  /-- A construct of the language. -/
  | construct (c : Construct)
  /-- A word or mark that the grammar asks for literally. -/
  | token (text : String)
deriving DecidableEq, Repr, Inhabited

namespace Kind

/-- The name of a construct, or the text of a token. -/
def name : Kind → String
  | .construct c => c.name
  | .token text => text

/-- The node is a construct. -/
def isNamed : Kind → Bool
  | .construct _ => true
  | .token _ => false

/-- The node names a variable, a type or a markup component. -/
def isName : Kind → Bool
  | .construct c => c.isName
  | .token _ => false

end Kind

end ScriptRefactor.Syntax
