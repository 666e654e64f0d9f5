import SchemaEmbed.CommandLine

namespace SchemaEmbed.CommandLine

/-!
# The texts about the program

* `versionText` — its name and version;
* `usageLine` — the order of its arguments;
* `helpText` — its description, in short or at length;
* `report` — a refusal with the usage.
-/

/-- The name of the program. -/
def programName : String := "update-graphql-schema"

/-- The name and the version of the program. -/
def versionText : String := programName ++ " 0.1.0\n"

/-- The order of the arguments. -/
def usageLine : String := "Usage: " ++ programName ++ " [OPTIONS] <SCHEMA> [BUNDLE]...\n"

/-- Examples of command lines. -/
def examplesText : String :=
  "Examples:\n" ++
  "    update-graphql-schema schema.json bundle.json\n" ++
  "    update-graphql-schema schema.yml bundles/*.yml --atomic\n" ++
  "    update-graphql-schema schema.json bundle.json --check\n"

/-- The short description. -/
def shortHelp : String :=
  "Embed a GraphQL schema document into bundle files\n\n" ++ usageLine ++ "\n" ++
  "Arguments:\n" ++
  "  <SCHEMA>     Schema document to embed\n" ++
  "  [BUNDLE]...  Bundle files to update in place, processed in order\n\n" ++
  "Options:\n" ++
  "      --key <KEY>   Top-level bundle key to store the schema under [default: graphql]\n" ++
  "      --atomic      Write each bundle through a temporary file and rename it into place\n" ++
  "      --check       Fail if any bundle is out of date, without writing anything\n" ++
  "  -v, --verbose...  Increase log output (-v info, -vv debug, -vvv trace)\n" ++
  "  -q, --quiet       Only log errors\n" ++
  "  -h, --help        Print help (see more with '--help')\n" ++
  "  -V, --version     Print version\n\n" ++ examplesText

/-- The description at length. -/
def longHelp : String :=
  "Reads SCHEMA once and stores it under the `graphql` key of every BUNDLE, " ++
  "rewriting each bundle in place in the format it was read in " ++
  "(JSON, YAML or TOML, detected from the extension or the content).\n\n" ++
  usageLine ++ "\n" ++
  "Arguments:\n" ++
  "  <SCHEMA>\n          Schema document to embed\n\n" ++
  "  [BUNDLE]...\n          Bundle files to update in place, processed in order\n\n" ++
  "Options:\n" ++
  "      --key <KEY>\n          Top-level bundle key to store the schema under\n" ++
  "          \n          [default: graphql]\n\n" ++
  "      --atomic\n" ++
  "          Write each bundle through a temporary file and rename it into place\n\n" ++
  "      --check\n          Fail if any bundle is out of date, without writing anything\n\n" ++
  "  -v, --verbose...\n          Increase log output (-v info, -vv debug, -vvv trace)\n\n" ++
  "  -q, --quiet\n          Only log errors\n\n" ++
  "  -h, --help\n          Print help (see a summary with '-h')\n\n" ++
  "  -V, --version\n          Print version\n\n" ++ examplesText

/-- The description of the program. -/
def helpText (long : Bool) : String := if long then longHelp else shortHelp

/-- A refusal with the usage. -/
def report (e : UsageError) : String :=
  e.message ++ "\n\n" ++ usageLine ++ "\nFor more information, try '--help'.\n"

end SchemaEmbed.CommandLine
