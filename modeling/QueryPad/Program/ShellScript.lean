import QueryPad.CommandLine
import QueryPad.Error

namespace QueryPad

-- Shells for which there is a script that completes the tasks.
inductive Shell where
  | bash | zsh | fish | powershell
  deriving DecidableEq

namespace Shell

-- Without regard to case.
def ofText (text : String) : Except SettingsError Shell :=
  match text.map Char.toLower with
  | "bash" => .ok bash
  | "zsh" => .ok zsh
  | "fish" => .ok fish
  | "powershell" | "pwsh" => .ok powershell
  | _ =>
    .error <| .generic <|
      "Unsupported shell: " ++ text ++ ". Supported shells: bash, zsh, fish, powershell"

def script (shell : Shell) : String :=
  let words := " ".intercalate Form.taskNames
  match shell with
  | bash => "complete -o default -W \"" ++ words ++ "\" mongo-scrapbook\n"
  | zsh => "#compdef mongo-scrapbook\ncompadd " ++ words ++ "\n_files\n"
  | fish => "complete -c mongo-scrapbook -n __fish_use_subcommand -a \"" ++ words ++ "\"\n"
  | powershell =>
    "Register-ArgumentCompleter -Native -CommandName mongo-scrapbook -ScriptBlock \x7b '" ++
      words ++ "' -split ' ' \x7d\n"

end Shell

end QueryPad
