import DirectCall.CommandLine.Arguments
import DirectCall.Report

/-!
# Usage texts

What the program says of itself and of a command line that it turns down.
-/

namespace DirectCall

namespace UsageError

def message : UsageError → String
  | missingRequired => "the following required arguments were not provided: --input <PATH>"
  | invalidValue => "a value is missing or not one of those that its option takes"
  | unknownArgument => "unexpected argument"
  | conflict => "an argument cannot be used multiple times"
  | tooManyValues => "unexpected value for an argument that takes none"

end UsageError

namespace CommandLine

def versionText : String := Report.toolName ++ " " ++ Report.toolVersion

/-- Options with what they stand for. -/
def optionTexts : List (String × String) :=
  [("--input <PATH>", "Jar, exploded module directory or class file to transform"),
   ("--classpath <PATH>", "Jar, directory or class file used only for resolution"),
   ("--output <DIR>", "Directory receiving the transformed inputs; omitted for a dry run"),
   ("--scope <SCOPE>", "[default: module] [possible values: module, global]"),
   ("--report <PATH>", "Report destination"),
   ("--disable <PASS>", "[possible values: get-method, for-name]"),
   ("--quiet", "Log errors only"),
   ("--timing", "Print how long the run took"),
   ("-h, --help", "Print help"),
   ("-V, --version", "Print version")]

/-- Text with blanks up to a width. -/
def padded (width : Nat) (text : String) : String :=
  text ++ String.ofList (List.replicate (width - text.length) ' ')

def usageText : String :=
  "Usage: " ++ Report.toolName ++ " [OPTIONS] --input <PATH>\n\nOptions:\n"
    ++ "\n".intercalate (optionTexts.map fun (name, text) => "  " ++ padded 20 name ++ text)

end CommandLine

end DirectCall
