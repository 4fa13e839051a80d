import Tftp.Settings

namespace Tftp

inductive Launch
  | exit (code : Nat) (output : Log.Output)
  | serve (settings : Settings) (level : Log.Level) (output : Log.Output)

def launch (isDirectory : Bytes → Bool) (program : Bytes) (args : List Bytes)
    (logVariable : Option Bytes) : Launch :=
  let (level, entries) := Log.Level.ofEnvironment logVariable
  let output := Log.render level entries
  match Settings.ofCommandLine {} isDirectory program args with
  | (_, .ok .help) => .exit 0 (output ++ { out := usage program })
  | (_, .error e) =>
    .exit 2 (output ++ { err := ascii "Error: " ++ e.message ++ [10] ++ usage program })
  | (settings, .ok .run) => .serve settings level output

end Tftp
