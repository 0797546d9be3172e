import GoContracts.Typing.Category

/-!
# Well-known packages

Only the package at hand is indexed. What other packages declare is known from these tables, whose
keys are an import path and a name joined by a point.
-/

namespace GoContracts.Library

/-- The results of functions. -/
def functionTable : List (String × List String) :=
  [("errors.New", ["error"]), ("errors.Join", ["error"]), ("errors.Unwrap", ["error"]),
    ("fmt.Errorf", ["error"]), ("fmt.Sprintf", ["string"]), ("fmt.Println", ["int", "error"]),
    ("fmt.Printf", ["int", "error"]), ("fmt.Fprintf", ["int", "error"]),
    ("fmt.Sscanf", ["int", "error"]), ("os.Open", ["*os.File", "error"]),
    ("os.Create", ["*os.File", "error"]), ("os.OpenFile", ["*os.File", "error"]),
    ("os.ReadFile", ["[]byte", "error"]), ("os.WriteFile", ["error"]),
    ("os.ReadDir", ["[]os.DirEntry", "error"]), ("os.Stat", ["os.FileInfo", "error"]),
    ("os.Lstat", ["os.FileInfo", "error"]), ("os.Mkdir", ["error"]), ("os.MkdirAll", ["error"]),
    ("os.MkdirTemp", ["string", "error"]), ("os.Remove", ["error"]), ("os.RemoveAll", ["error"]),
    ("os.Rename", ["error"]), ("os.Getwd", ["string", "error"]),
    ("os.Hostname", ["string", "error"]), ("os.Getenv", ["string"]),
    ("io.ReadAll", ["[]byte", "error"]), ("io.Copy", ["int64", "error"]),
    ("io.WriteString", ["int", "error"]), ("strconv.Atoi", ["int", "error"]),
    ("strconv.Itoa", ["string"]), ("strconv.ParseInt", ["int64", "error"]),
    ("strconv.ParseUint", ["uint64", "error"]), ("strconv.ParseFloat", ["float64", "error"]),
    ("strconv.ParseBool", ["bool", "error"]), ("strconv.Unquote", ["string", "error"]),
    ("encoding/json.Marshal", ["[]byte", "error"]),
    ("encoding/json.MarshalIndent", ["[]byte", "error"]), ("encoding/json.Unmarshal", ["error"]),
    ("encoding/hex.DecodeString", ["[]byte", "error"]),
    ("encoding/base64.StdEncoding.DecodeString", ["[]byte", "error"]),
    ("path/filepath.Abs", ["string", "error"]), ("path/filepath.Rel", ["string", "error"]),
    ("path/filepath.Glob", ["[]string", "error"]),
    ("path/filepath.EvalSymlinks", ["string", "error"]),
    ("net/http.Get", ["*http.Response", "error"]), ("net/http.Post", ["*http.Response", "error"]),
    ("net/http.NewRequest", ["*http.Request", "error"]), ("net/url.Parse", ["*url.URL", "error"]),
    ("net.Dial", ["net.Conn", "error"]), ("net.Listen", ["net.Listener", "error"]),
    ("time.Parse", ["time.Time", "error"]), ("time.ParseDuration", ["time.Duration", "error"]),
    ("time.LoadLocation", ["*time.Location", "error"]), ("time.Now", ["time.Time"]),
    ("regexp.Compile", ["*regexp.Regexp", "error"]), ("os/exec.LookPath", ["string", "error"]),
    ("database/sql.Open", ["*sql.DB", "error"])]

/-- The types of variables. -/
def variableTable : List (String × String) :=
  [("io.EOF", "error"), ("io.ErrUnexpectedEOF", "error"), ("os.ErrNotExist", "error"),
    ("os.ErrExist", "error"), ("os.ErrPermission", "error"), ("os.Args", "[]string"),
    ("context.Canceled", "error"), ("context.DeadlineExceeded", "error"),
    ("database/sql.ErrNoRows", "error"), ("net/http.ErrServerClosed", "error")]

/-- The categories of named types. -/
def categoryTable : List (String × Category) :=
  [("time.Duration", .integer), ("time.Month", .integer), ("time.Weekday", .integer),
    ("time.Time", .aggregate true), ("os.FileMode", .integer), ("io/fs.FileMode", .integer),
    ("os.FileInfo", .nilable), ("io/fs.FileInfo", .nilable), ("os.DirEntry", .nilable),
    ("context.Context", .nilable), ("context.CancelFunc", .nilable), ("io.Reader", .nilable),
    ("io.Writer", .nilable), ("io.ReadCloser", .nilable), ("io.WriteCloser", .nilable),
    ("io.ReadWriter", .nilable), ("io.Closer", .nilable), ("net.Conn", .nilable),
    ("net.Listener", .nilable), ("net/http.Handler", .nilable), ("net/http.HandlerFunc", .nilable),
    ("net/http.Header", .nilable), ("net/url.Values", .nilable), ("sync.Mutex", .aggregate true),
    ("sync.RWMutex", .aggregate true), ("sync.WaitGroup", .aggregate true),
    ("strings.Builder", .aggregate true), ("bytes.Buffer", .aggregate true),
    ("encoding/json.RawMessage", .nilable), ("math/big.Int", .aggregate true)]

/-- The types that are errors. -/
def errorTable : List String :=
  ["os.PathError", "io/fs.PathError", "os.LinkError", "os.SyscallError", "net.OpError",
    "net/url.Error", "encoding/json.SyntaxError", "encoding/json.UnmarshalTypeError",
    "strconv.NumError", "os/exec.ExitError"]

/-- The constraints that hold comparable types only. -/
def comparableTable : List String :=
  ["cmp.Ordered", "golang.org/x/exp/constraints.Ordered", "golang.org/x/exp/constraints.Integer",
    "golang.org/x/exp/constraints.Signed", "golang.org/x/exp/constraints.Unsigned",
    "golang.org/x/exp/constraints.Float", "golang.org/x/exp/constraints.Complex"]

/-- The category of a predeclared type. -/
def builtinCategory? (name : String) : Option Category :=
  match name with
  | "string" => some .string
  | "bool" => some .bool
  | "float32" | "float64" => some .float
  | "complex64" | "complex128" => some .complex
  | "error" | "any" => some .nilable
  | "int" | "int8" | "int16" | "int32" | "int64" | "uint" | "uint8" | "uint16" | "uint32"
  | "uint64" | "uintptr" | "byte" | "rune" => some .integer
  | _ => none

/-- Whether the name is that of a predeclared type. -/
def isBuiltinType (name : String) : Bool := (builtinCategory? name).isSome

/-- The results of a function. -/
def functionResults? (key : String) : Option (List String) := functionTable.lookup key

/-- The type of a variable. -/
def variableType? (key : String) : Option String := variableTable.lookup key

/-- The category of a named type. -/
def category? (key : String) : Option Category := categoryTable.lookup key

/-- Whether a named type is an error. -/
def isErrorType (key : String) : Bool := errorTable.contains key

/-- Whether all types that satisfy a constraint are comparable. -/
def isComparableConstraint (key : String) : Bool := comparableTable.contains key

end GoContracts.Library
