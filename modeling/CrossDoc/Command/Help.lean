import CrossDoc.Text

/-!
# The help text
-/

namespace CrossDoc.Command

def helpLines : List String :=
  ["",
    "polydoc - multi-platform documentation generator",
    "",
    "Usage: polydoc --config=<file> [options]",
    "       polydoc --module=<name> --source=<dir>... [--platform=<name>] [options]",
    "",
    "Options:",
    "  --config=<file>         Configuration file",
    "  --output=<dir>          Output directory (default: docs)",
    "  -o=<dir>                Alias for --output",
    "  --format=<fmt>          Output format (default: markdown)",
    "  --module=<name>         Module name of a single pass",
    "  --source=<dir>          Source root of a single pass (repeatable)",
    "  --classpath=<path>      Classpath entry of a single pass (repeatable)",
    "  --platform=<name>       Platform of a single pass: jvm, js, native, common",
    "  --include-non-public    Document internal and private declarations",
    "  --generate-index-pages  Add \"all types\" and alphabetical index pages",
    "  --fail-on-error         Exit with code 2 when analysis reports errors",
    "  --skip                  Do nothing",
    "  --help, -h              Show this help",
    "",
    "Logging:",
    "  --log-level=<level>     trace, debug, info, warn, error, fatal, off",
    "  --log-filter=<spec>     Per-module levels, e.g. \"merge=debug,*=warn\"",
    "  --log-file=<path>       Also write log records to a file",
    "  --log-format=<fmt>      text or json",
    "  -v, -vv, -vvv           More output",
    "  -q, --quiet             Warnings and errors only",
    "",
    "Exit codes:",
    "  0  success",
    "  1  configuration error or failed stage",
    "  2  analysis errors with --fail-on-error",
    "",
    ""]

/-- The text shown on request. -/
def help : Text := Text.unlines (helpLines.map String.toList)

end CrossDoc.Command
