/-!
# Kinds of syntax

The named kinds of the nodes of a Go syntax tree, and the roles that children play in their
parents.
-/

namespace GoContracts.Syntax

/-- The kind of a node. -/
inductive Kind where
  | sourceFile | packageClause | importDeclaration | importSpec | importSpecList | dot
  | blankIdentifier | constDeclaration | constSpec | varDeclaration | varSpec | varSpecList
  | typeDeclaration | typeSpec | typeAlias | functionDeclaration | methodDeclaration
  | typeParameterList | typeParameterDeclaration | typeConstraint | parameterList
  | parameterDeclaration | variadicParameterDeclaration | parenthesizedType | genericType
  | typeArguments | typeElem | pointerType | arrayType | implicitLengthArrayType | sliceType
  | structType | negatedType | fieldDeclarationList | fieldDeclaration | interfaceType
  | methodElem | mapType | channelType | functionType | qualifiedType | block | statementList
  | expressionStatement | sendStatement | receiveStatement | incStatement | decStatement
  | assignmentStatement | shortVarDeclaration | labeledStatement | labelName | emptyStatement
  | fallthroughStatement | breakStatement | continueStatement | gotoStatement | returnStatement
  | goStatement | deferStatement | ifStatement | forStatement | forClause | rangeClause
  | expressionSwitchStatement | expressionCase | defaultCase | typeSwitchStatement | typeCase
  | selectStatement | communicationCase | expressionList | parenthesizedExpression
  | callExpression | variadicArgument | argumentList | selectorExpression | indexExpression
  | sliceExpression | typeAssertionExpression | typeConversionExpression
  | typeInstantiationExpression | compositeLiteral | literalValue | literalElement | keyedElement
  | funcLiteral | unaryExpression | binaryExpression | identifier | typeIdentifier
  | fieldIdentifier | packageIdentifier | rawStringLiteral | interpretedStringLiteral
  | intLiteral | floatLiteral | imaginaryLiteral | runeLiteral | nilLiteral | trueLiteral
  | falseLiteral | iota | comment
  deriving DecidableEq, Repr

/-- The name of a kind in reports. -/
def Kind.name : Kind → String
  | sourceFile => "source_file"
  | packageClause => "package_clause"
  | importDeclaration => "import_declaration"
  | importSpec => "import_spec"
  | importSpecList => "import_spec_list"
  | dot => "dot"
  | blankIdentifier => "blank_identifier"
  | constDeclaration => "const_declaration"
  | constSpec => "const_spec"
  | varDeclaration => "var_declaration"
  | varSpec => "var_spec"
  | varSpecList => "var_spec_list"
  | typeDeclaration => "type_declaration"
  | typeSpec => "type_spec"
  | typeAlias => "type_alias"
  | functionDeclaration => "function_declaration"
  | methodDeclaration => "method_declaration"
  | typeParameterList => "type_parameter_list"
  | typeParameterDeclaration => "type_parameter_declaration"
  | typeConstraint => "type_constraint"
  | parameterList => "parameter_list"
  | parameterDeclaration => "parameter_declaration"
  | variadicParameterDeclaration => "variadic_parameter_declaration"
  | parenthesizedType => "parenthesized_type"
  | genericType => "generic_type"
  | typeArguments => "type_arguments"
  | typeElem => "type_elem"
  | pointerType => "pointer_type"
  | arrayType => "array_type"
  | implicitLengthArrayType => "implicit_length_array_type"
  | sliceType => "slice_type"
  | structType => "struct_type"
  | negatedType => "negated_type"
  | fieldDeclarationList => "field_declaration_list"
  | fieldDeclaration => "field_declaration"
  | interfaceType => "interface_type"
  | methodElem => "method_elem"
  | mapType => "map_type"
  | channelType => "channel_type"
  | functionType => "function_type"
  | qualifiedType => "qualified_type"
  | block => "block"
  | statementList => "statement_list"
  | expressionStatement => "expression_statement"
  | sendStatement => "send_statement"
  | receiveStatement => "receive_statement"
  | incStatement => "inc_statement"
  | decStatement => "dec_statement"
  | assignmentStatement => "assignment_statement"
  | shortVarDeclaration => "short_var_declaration"
  | labeledStatement => "labeled_statement"
  | labelName => "label_name"
  | emptyStatement => "empty_statement"
  | fallthroughStatement => "fallthrough_statement"
  | breakStatement => "break_statement"
  | continueStatement => "continue_statement"
  | gotoStatement => "goto_statement"
  | returnStatement => "return_statement"
  | goStatement => "go_statement"
  | deferStatement => "defer_statement"
  | ifStatement => "if_statement"
  | forStatement => "for_statement"
  | forClause => "for_clause"
  | rangeClause => "range_clause"
  | expressionSwitchStatement => "expression_switch_statement"
  | expressionCase => "expression_case"
  | defaultCase => "default_case"
  | typeSwitchStatement => "type_switch_statement"
  | typeCase => "type_case"
  | selectStatement => "select_statement"
  | communicationCase => "communication_case"
  | expressionList => "expression_list"
  | parenthesizedExpression => "parenthesized_expression"
  | callExpression => "call_expression"
  | variadicArgument => "variadic_argument"
  | argumentList => "argument_list"
  | selectorExpression => "selector_expression"
  | indexExpression => "index_expression"
  | sliceExpression => "slice_expression"
  | typeAssertionExpression => "type_assertion_expression"
  | typeConversionExpression => "type_conversion_expression"
  | typeInstantiationExpression => "type_instantiation_expression"
  | compositeLiteral => "composite_literal"
  | literalValue => "literal_value"
  | literalElement => "literal_element"
  | keyedElement => "keyed_element"
  | funcLiteral => "func_literal"
  | unaryExpression => "unary_expression"
  | binaryExpression => "binary_expression"
  | identifier => "identifier"
  | typeIdentifier => "type_identifier"
  | fieldIdentifier => "field_identifier"
  | packageIdentifier => "package_identifier"
  | rawStringLiteral => "raw_string_literal"
  | interpretedStringLiteral => "interpreted_string_literal"
  | intLiteral => "int_literal"
  | floatLiteral => "float_literal"
  | imaginaryLiteral => "imaginary_literal"
  | runeLiteral => "rune_literal"
  | nilLiteral => "nil"
  | trueLiteral => "true"
  | falseLiteral => "false"
  | iota => "iota"
  | comment => "comment"

/-- The role of a child in its parent. -/
inductive Role where
  | alias | alternative | arguments | body | capacity | channel | communication | condition
  | consequence | element | finish | field | function | index | initializer | key | label | left
  | length | name | operand | operator | package | parameters | path | receiver | result | right
  | start | tag | type | typeArguments | typeParameters | update | value
  deriving DecidableEq, Repr

/-- The kinds that hold an ordered list of statements. -/
def Kind.isScope : Kind → Bool
  | block | expressionCase | defaultCase | typeCase | communicationCase => true
  | _ => false

/-- The kinds whose named children are statements: a list of statements may stand in a scope as one
node. -/
def Kind.listsStatements (k : Kind) : Bool := k.isScope || k = .statementList

/-- The kinds of statements that bind or assign values. -/
def Kind.isAssignment : Kind → Bool
  | shortVarDeclaration | assignmentStatement => true
  | _ => false

/-- The kinds that have parameters, results and a body. -/
def Kind.isFunction : Kind → Bool
  | functionDeclaration | methodDeclaration | funcLiteral => true
  | _ => false

end GoContracts.Syntax
